import Xqdb.Io.ReadFile
import Xqdb.Lib.LittleEndian
import Xqdb.Lib.Lz4

/-! `unzip` and `unzip_lz4` of `io.rs`. A Kxzip file has its compressed blocks between an
8-byte header and a footer that is read from the end of the file. The block table is gone
over twice: first the sizes are checked, then the blocks are copied into one LZ4 frame. The
frame decoder and the checksum of the frame's header come from other crates. -/

namespace Xqdb.Io

open Connector (QStream Buffer readExact)

/-- `KXZIP_MAGIC`: `kxzipped`. -/
def kxzipMagic : Bytes := [107, 120, 122, 105, 112, 112, 101, 100]

def kxzipHeaderLength : Nat := 8

def kxzipFooterWordLength : Nat := 8

def kxzipFixedFooterWords : Nat := 5

def maxLz4ExpansionRatio : Nat := 255

/-- `Err(XqdbError::Err(message))`. -/
def fails {α : Type} (message : String) : Exec α := Exec.err (.Err message)

/-- `option.ok_or_else(|| XqdbError::Err(message))?`. -/
def orFails {α : Type} (value : Option α) (message : String) : Exec α := Exec.okOr value (.Err message)

def kxzipUsize (bytes : Bytes) (description : String) : Exec Nat :=
  if bytes.length = 8 then .ok (LittleEndian.decode bytes)
  else fails s!"Kxzip {description} is shorter than the required 8 bytes"

def kxzipFooterLength (blockNum : Nat) : Exec Nat :=
  orFails ((checkedAdd blockNum kxzipFixedFooterWords).bind fun words => checkedMul words kxzipFooterWordLength)
    "Kxzip footer length overflowed"

def lz4BlockSize (footer : Bytes) (blockIndex : Nat) : Exec Nat := do
  let offset ← orFails ((checkedMul blockIndex kxzipFooterWordLength).bind fun offset => checkedAdd 32 offset)
    "Kxzip LZ4 block metadata offset overflowed"
  let stop ← orFails (checkedAdd offset 4) "Kxzip LZ4 block metadata range overflowed"
  let bytes ← orFails (getRange footer offset stop) s!"Kxzip footer is truncated at LZ4 block {blockIndex}"
  if bytes.length = 4 then .ok (LittleEndian.decode bytes) else fails "Invalid Kxzip LZ4 block size"

/-! ## The first pass -/

structure BlockScan where
  frameCapacity : Nat
  reachableUnzippedSize : Nat
  hasEmptyBlock : Bool
  blockStart : Nat

def BlockScan.start : BlockScan := ⟨19, 0, false, kxzipHeaderLength⟩

def scanBlock (footer : Bytes) (footerIndex blockSize : Nat) (scan : BlockScan) (blockIndex : Nat) : Exec BlockScan := do
  let size ← lz4BlockSize footer blockIndex
  let blockEnd ← orFails (checkedAdd scan.blockStart size) s!"Kxzip LZ4 block {blockIndex} range overflowed"
  if footerIndex < blockEnd then
    fails s!"Kxzip LZ4 block {blockIndex} ends at {blockEnd}, beyond compressed data ending at {footerIndex}"
  else
    let frameCapacity ← orFails ((checkedAdd scan.frameCapacity 4).bind fun capacity => checkedAdd capacity size)
      "Kxzip LZ4 frame size overflowed"
    let reachable ← orFails ((checkedMul size maxLz4ExpansionRatio).bind fun expanded =>
        checkedAdd scan.reachableUnzippedSize (min expanded blockSize))
      "Kxzip output size bound overflowed"
    .ok ⟨frameCapacity, reachable, scan.hasEmptyBlock || size == 0, blockEnd⟩

/-- The next `count` blocks, from `blockIndex` on. -/
def scanBlocks (footer : Bytes) (footerIndex blockSize : Nat) : Nat → Nat → BlockScan → Exec BlockScan
  | 0, _, scan => .ok scan
  | count + 1, blockIndex, scan => do
    let scan ← scanBlock footer footerIndex blockSize scan blockIndex
    scanBlocks footer footerIndex blockSize count (blockIndex + 1) scan

/-- The first pass with the checks behind it: no gap before the footer, a size that the
blocks can reach, no empty block. -/
def validateBlocks (footer : Bytes) (footerIndex blockNum blockSize unzippedSize : Nat) : Exec BlockScan := do
  let scan ← scanBlocks footer footerIndex blockSize blockNum 0 BlockScan.start
  if scan.blockStart ≠ footerIndex then
    let trailing ← subtract footerIndex scan.blockStart
    fails s!"Kxzip data contains {trailing} trailing compressed bytes"
  else if scan.reachableUnzippedSize < unzippedSize then
    let compressed ← subtract footerIndex kxzipHeaderLength
    let reachable := scan.reachableUnzippedSize
    fails s!"Kxzip declares {unzippedSize} decompressed bytes, unreachable from its {compressed} compressed bytes, which expand to at most {reachable}"
  else if scan.hasEmptyBlock then fails "Kxzip LZ4 metadata contains an empty block"
  else .ok scan

/-! ## The second pass -/

/-- Copies the next `count` blocks behind `zippedBytes`, each behind its size. -/
def copyBlocks (buf footer : Bytes) : Nat → Nat → Nat → Bytes → Exec Bytes
  | 0, _, _, zippedBytes => .ok zippedBytes
  | count + 1, blockIndex, blockStart, zippedBytes => do
    let size ← lz4BlockSize footer blockIndex
    let blockEnd ← orFails (checkedAdd blockStart size) s!"Kxzip LZ4 block {blockIndex} range overflowed"
    let block ← orFails (getRange buf blockStart blockEnd) s!"Kxzip LZ4 block {blockIndex} is truncated"
    copyBlocks buf footer count (blockIndex + 1) blockEnd (zippedBytes ++ LittleEndian.encode 4 size ++ block)

/-! ## The whole file -/

/-- `lz4_flex`'s `FrameDecoder`: what the reads of a decoder over a frame report, and where
its reader stands once a read has found the end. -/
structure FrameDecoder where
  reads : Bytes → QStream
  position : Bytes → Nat

def decompressionError : XqdbError → XqdbError
  | .IOError kind message => .IOError kind s!"Failed to decompress Kxzip LZ4 data: {message}"
  | e => e

/-- `result.map_err(decompression_error)?`. -/
def orDecompressionError {α : Type} : Exec α → Exec α
  | .error (.error e) => Exec.err (decompressionError e)
  | result => result

/-- `decoder.read(&mut trailing)`, made once: the bytes it gives. -/
def readTrailing : QStream → Exec Bytes
  | [] => .ok []
  | .data b _ :: _ => .ok [b]
  | .interrupted :: _ => Exec.err (.IOError .interrupted "operation interrupted")
  | .failed e :: _ => Exec.err e.toError

def isPowerOfTwo (n : Nat) : Bool := 2 ^ n.log2 == n

def blockDescriptor (blockSize : Nat) : UInt8 :=
  if blockSize ≤ 65536 then 0x40
  else if blockSize ≤ 262144 then 0x50
  else if blockSize ≤ 1048576 then 0x60
  else 0x70

section

variable (heap : Heap) (xxh32 : Bytes → UInt32 → UInt32) (decoder : FrameDecoder)

/-- `try_reserve_exact` on an empty vector. -/
def reserveFor (size : Nat) (what : String) : Exec Unit :=
  match tryReserveExact heap Buffer.empty size with
  | .ok _ => .ok ()
  | .error error =>
    let reason := error.text
    fails s!"Unable to allocate {size}-byte Kxzip {what}: {reason}"

/-- The frame: its header with the checksum, the blocks and the end mark. -/
def buildFrame (buf footer : Bytes) (blockNum blockSize : Nat) : Exec Bytes := do
  let declared ← sliceRange footer 8 16
  let zippedBytes : Bytes := [4, 34, 77, 24, 104, blockDescriptor blockSize] ++ declared
  let described ← sliceRange zippedBytes 4 zippedBytes.length
  let headerChecksum := LittleEndian.encode 4 (xxh32 described 0).toNat
  let checksum ← index headerChecksum 1
  let zippedBytes ← copyBlocks buf footer blockNum 0 kxzipHeaderLength (zippedBytes ++ [checksum])
  .ok (zippedBytes ++ [0, 0, 0, 0])

def decodeFrame (zippedBytes : Bytes) (unzippedSize : Nat) : Exec Bytes := do
  let (unzippedBytes, stream) ← orDecompressionError (readExact unzippedSize (decoder.reads zippedBytes))
  let trailing ← orDecompressionError (readTrailing stream)
  if trailing.length = 0 then
    if decoder.position zippedBytes ≠ zippedBytes.length then
      fails "Kxzip LZ4 stream contains trailing encoded bytes"
    else .ok unzippedBytes
  else fails s!"Kxzip LZ4 output exceeds declared size {unzippedSize}"

def unzipLz4 (buf : Bytes) (footerIndex blockNum : Nat) : Exec Bytes := do
  if kxzipMagic.isPrefixOf buf = false then fails "Invalid or truncated Kxzip header"
  else if footerIndex < kxzipHeaderLength then fails "Kxzip compressed data starts inside its 8-byte header"
  else
    let expected ← kxzipFooterLength blockNum
    let footer ← orFails (getFrom buf footerIndex) "Kxzip footer offset exceeds file length"
    let found := footer.length
    if found ≠ expected then fails s!"Kxzip footer length mismatch: expected {expected} bytes, got {found}"
    else if footer[4]? ≠ some 4 then fails "Kxzip footer does not describe LZ4 compression"
    else
      let blockSizeBytes ← orFails (getRange footer 24 32) "Kxzip footer is missing LZ4 block size"
      let blockSize ← kxzipUsize blockSizeBytes "LZ4 block size"
      if ¬ (2 ^ 12 ≤ blockSize ∧ blockSize ≤ 2 ^ 22) ∨ isPowerOfTwo blockSize = false then
        fails s!"Unsupported Kxzip LZ4 logical block size {blockSize}; expected a power of two from 4096 through 4194304"
      else
        let unzippedSizeBytes ← orFails (getRange footer 8 16) "Kxzip footer is missing output size"
        let unzippedSize ← kxzipUsize unzippedSizeBytes "decompressed size"
        let scan ← validateBlocks footer footerIndex blockNum blockSize unzippedSize
        reserveFor heap scan.frameCapacity "LZ4 frame"
        let zippedBytes ← buildFrame xxh32 buf footer blockNum blockSize
        reserveFor heap unzippedSize "output"
        decodeFrame decoder zippedBytes unzippedSize

def unzip (buf : Bytes) : Exec Bytes := do
  if kxzipMagic.isPrefixOf buf = false then fails "Invalid or truncated Kxzip header"
  else
    let blockCountStart ← orFails (checkedSub buf.length kxzipFooterWordLength) "Kxzip file is missing its block count"
    let blockCount ← sliceRange buf blockCountStart buf.length
    let blockNum ← kxzipUsize blockCount "block count"
    let footerLength ← kxzipFooterLength blockNum
    let fileLength := buf.length
    let footerIndex ← orFails (checkedSub buf.length footerLength)
      s!"Kxzip footer length {footerLength} exceeds file length {fileLength}"
    if footerIndex < kxzipHeaderLength then fails "Kxzip file is shorter than its 8-byte header and footer"
    else
      let algorithmIndex ← orFails (checkedAdd footerIndex 4) "Kxzip compression metadata offset overflowed"
      let algorithm ← orFails buf[algorithmIndex]? "Kxzip footer is missing its compression algorithm"
      if algorithm = 4 then unzipLz4 heap xxh32 decoder buf footerIndex blockNum
      else fails s!"Not supported compression algo - {algorithm}"

end

/-! ## Tables of sizes -/

def total : List Nat → Nat
  | [] => 0
  | n :: sizes => n + total sizes

/-- The footer gives these sizes from block `blockIndex` on. -/
def TableFrom (footer : Bytes) : Nat → List Nat → Prop
  | _, [] => True
  | blockIndex, size :: sizes => lz4BlockSize footer blockIndex = .ok size ∧ TableFrom footer (blockIndex + 1) sizes

theorem tableFrom_iff {footer : Bytes} {blockIndex : Nat} {sizes : List Nat} :
    TableFrom footer blockIndex sizes ↔
      ∀ i (h : i < sizes.length), lz4BlockSize footer (blockIndex + i) = .ok sizes[i] := by
  induction sizes generalizing blockIndex with
  | nil => simp [TableFrom]
  | cons size sizes ih =>
    rw [TableFrom, ih]
    constructor
    · rintro ⟨hsize, hrest⟩ i hi
      cases i with
      | zero => exact hsize
      | succ i =>
        have hplace : blockIndex + (i + 1) = blockIndex + 1 + i := by omega
        rw [hplace]
        exact hrest i (Nat.lt_of_succ_lt_succ hi)
    · intro h
      refine ⟨h 0 (Nat.succ_pos _), ?_⟩
      intro i hi
      have hplace : blockIndex + 1 + i = blockIndex + (i + 1) := by omega
      rw [hplace]
      exact h (i + 1) (Nat.succ_lt_succ hi)

theorem orFails_eq_ok {α : Type} {value : Option α} {message : String} {a : α} :
    orFails value message = .ok a ↔ value = some a := Exec.okOr_eq_ok

@[simp] theorem orFails_some {α : Type} (a : α) (message : String) : orFails (some a) message = .ok a := rfl

@[simp] theorem orFails_none {α : Type} (message : String) : orFails (none : Option α) message = fails message := rfl

@[simp] theorem fails_bind {α β : Type} (message : String) (next : α → Exec β) :
    (fails message : Exec α) >>= next = fails message := rfl

@[simp] theorem fails_ne_ok {α : Type} (message : String) (a : α) : (fails message : Exec α) ≠ .ok a :=
  Exec.err_ne_ok _ a

theorem noPanic_fails {α : Type} (message : String) : NoPanic (fails message : Exec α) := noPanic_err _

theorem noPanic_orFails {α : Type} (value : Option α) (message : String) : NoPanic (orFails value message) :=
  noPanic_okOr value _

theorem noPanic_lz4BlockSize (footer : Bytes) (blockIndex : Nat) : NoPanic (lz4BlockSize footer blockIndex) := by
  rw [lz4BlockSize]
  apply (noPanic_orFails _ _).bind
  intro offset _
  apply (noPanic_orFails _ _).bind
  intro stop _
  apply (noPanic_orFails _ _).bind
  intro bytes _
  split
  · exact noPanic_ok _
  · exact noPanic_fails _

/-- An entry is four bytes of the footer. -/
theorem lz4BlockSize_bounds {footer : Bytes} {blockIndex size : Nat} (h : lz4BlockSize footer blockIndex = .ok size) :
    size < 2 ^ 32 ∧ 8 * blockIndex + 36 ≤ footer.length := by
  rw [lz4BlockSize, Exec.bind_eq_ok] at h
  obtain ⟨offset, hoffset, h⟩ := h
  rw [Exec.bind_eq_ok] at h
  obtain ⟨stop, hstop, h⟩ := h
  rw [Exec.bind_eq_ok] at h
  obtain ⟨bytes, hbytes, h⟩ := h
  rw [orFails_eq_ok, Option.bind_eq_some_iff] at hoffset
  obtain ⟨place, hplace, hoffset⟩ := hoffset
  rw [checkedMul_eq_some, kxzipFooterWordLength] at hplace
  rw [checkedAdd_eq_some] at hoffset
  rw [orFails_eq_ok, checkedAdd_eq_some] at hstop
  rw [orFails_eq_ok, getRange_eq_some] at hbytes
  by_cases hfour : bytes.length = 4
  · rw [if_pos hfour] at h
    obtain rfl := Except.ok.inj h
    have hlt := LittleEndian.decode_lt bytes
    rw [hfour] at hlt
    exact ⟨by simpa using hlt, by omega⟩
  · rw [if_neg hfour] at h
    cases h

/-! ## The first pass over a table -/

def BlockScan.push (blockSize : Nat) (scan : BlockScan) (size : Nat) : BlockScan :=
  ⟨scan.frameCapacity + 4 + size, scan.reachableUnzippedSize + min (size * maxLz4ExpansionRatio) blockSize,
    scan.hasEmptyBlock || size == 0, scan.blockStart + size⟩

/-- The scan behind blocks of these sizes. -/
def BlockScan.after (blockSize : Nat) : BlockScan → List Nat → BlockScan
  | scan, [] => scan
  | scan, size :: sizes => (scan.push blockSize size).after blockSize sizes

/-- The most that blocks of these sizes can decode to. -/
def reach (blockSize : Nat) (sizes : List Nat) : Nat :=
  total (sizes.map fun size => min (size * maxLz4ExpansionRatio) blockSize)

theorem BlockScan.after_fields (blockSize : Nat) (scan : BlockScan) (sizes : List Nat) :
    (scan.after blockSize sizes).frameCapacity = scan.frameCapacity + 4 * sizes.length + total sizes ∧
      (scan.after blockSize sizes).blockStart = scan.blockStart + total sizes ∧
      (scan.after blockSize sizes).reachableUnzippedSize = scan.reachableUnzippedSize + reach blockSize sizes ∧
      ((scan.after blockSize sizes).hasEmptyBlock = true ↔ scan.hasEmptyBlock = true ∨ 0 ∈ sizes) := by
  induction sizes generalizing scan with
  | nil => simp [after, total, reach]
  | cons size sizes ih =>
    obtain ⟨hframe, hstart, hreach, hempty⟩ := ih (scan.push blockSize size)
    simp only [after, hframe, hstart, hreach, hempty]
    simp only [push, total, reach, List.map_cons, List.length_cons, List.mem_cons, Bool.or_eq_true, beq_iff_eq]
    refine ⟨by omega, by omega, by omega, ?_⟩
    rw [or_assoc, @eq_comm _ 0 size]

/-- Every count of the scan fits, and no block reaches into the footer. -/
def BlockScan.Within (footerIndex : Nat) (scan : BlockScan) : Prop :=
  scan.blockStart ≤ footerIndex ∧ scan.blockStart ≤ usizeMax ∧ scan.frameCapacity ≤ usizeMax ∧
    scan.reachableUnzippedSize ≤ usizeMax

theorem scanBlock_eq_ok {footer : Bytes} {footerIndex blockSize blockIndex : Nat} {scan next : BlockScan}
    (h : scanBlock footer footerIndex blockSize scan blockIndex = .ok next) :
    ∃ size, lz4BlockSize footer blockIndex = .ok size ∧ next = scan.push blockSize size ∧ next.Within footerIndex := by
  rw [scanBlock, Exec.bind_eq_ok] at h
  obtain ⟨size, hsize, h⟩ := h
  rw [Exec.bind_eq_ok] at h
  obtain ⟨blockEnd, hend, h⟩ := h
  rw [orFails_eq_ok, checkedAdd_eq_some] at hend
  by_cases hbeyond : footerIndex < blockEnd
  · rw [if_pos hbeyond] at h
    cases h
  rw [if_neg hbeyond, Exec.bind_eq_ok] at h
  obtain ⟨frameCapacity, hframe, h⟩ := h
  rw [Exec.bind_eq_ok] at h
  obtain ⟨reachable, hreach, h⟩ := h
  rw [orFails_eq_ok, Option.bind_eq_some_iff] at hframe hreach
  obtain ⟨room, hroom, hframe⟩ := hframe
  obtain ⟨expanded, hexpanded, hreach⟩ := hreach
  rw [checkedAdd_eq_some] at hroom hframe hreach
  rw [checkedMul_eq_some] at hexpanded
  obtain ⟨rfl, -⟩ := hexpanded
  obtain ⟨rfl, -⟩ := hroom
  obtain rfl := Except.ok.inj h
  refine ⟨size, hsize, ?_, Nat.not_lt.mp hbeyond, hend.2, hframe.2, hreach.2⟩
  rw [BlockScan.push, hframe.1, hreach.1, hend.1]

theorem scanBlocks_eq_ok {footer : Bytes} {footerIndex blockSize count blockIndex : Nat} {scan last : BlockScan}
    (hscan : scan.Within footerIndex) (h : scanBlocks footer footerIndex blockSize count blockIndex scan = .ok last) :
    ∃ sizes, sizes.length = count ∧ TableFrom footer blockIndex sizes ∧ last = scan.after blockSize sizes ∧
      last.Within footerIndex := by
  induction count generalizing blockIndex scan with
  | zero =>
    obtain rfl := Except.ok.inj h
    exact ⟨[], rfl, trivial, rfl, hscan⟩
  | succ count ih =>
    rw [scanBlocks, Exec.bind_eq_ok] at h
    obtain ⟨next, hnext, h⟩ := h
    obtain ⟨size, hsize, rfl, hwithin⟩ := scanBlock_eq_ok hnext
    obtain ⟨sizes, hcount, htable, hlast, hend⟩ := ih hwithin h
    exact ⟨size :: sizes, by rw [List.length_cons, hcount], ⟨hsize, htable⟩, hlast, hend⟩

def boundOverflowed : String := "Kxzip output size bound overflowed"

/-- A block that fits is taken, unless the bound on the output leaves `usize`. -/
theorem scanBlock_fits {footer : Bytes} {footerIndex blockSize blockIndex size : Nat} {scan : BlockScan}
    (hfooter : footerIndex ≤ usizeMax) (hsize : lz4BlockSize footer blockIndex = .ok size)
    (hstart : scan.blockStart + size ≤ footerIndex) (hframe : scan.frameCapacity + 4 + size ≤ usizeMax) :
    scanBlock footer footerIndex blockSize scan blockIndex =
      if scan.reachableUnzippedSize + min (size * maxLz4ExpansionRatio) blockSize ≤ usizeMax then
        .ok (scan.push blockSize size)
      else fails boundOverflowed := by
  have hsmall := (lz4BlockSize_bounds hsize).1
  have hend : checkedAdd scan.blockStart size = some (scan.blockStart + size) :=
    checkedAdd_eq_some.mpr ⟨rfl, by omega⟩
  have hroom : checkedAdd scan.frameCapacity 4 = some (scan.frameCapacity + 4) :=
    checkedAdd_eq_some.mpr ⟨rfl, by omega⟩
  have hcapacity : checkedAdd (scan.frameCapacity + 4) size = some (scan.frameCapacity + 4 + size) :=
    checkedAdd_eq_some.mpr ⟨rfl, hframe⟩
  have hexpanded : checkedMul size maxLz4ExpansionRatio = some (size * maxLz4ExpansionRatio) :=
    checkedMul_eq_some.mpr ⟨rfl, by simp only [maxLz4ExpansionRatio, usizeMax]; omega⟩
  simp only [scanBlock, hsize, Exec.ok_bind, hend, orFails_some, if_neg (Nat.not_lt.mpr hstart), hroom, hcapacity,
    hexpanded, Option.bind_some]
  by_cases hreach : scan.reachableUnzippedSize + min (size * maxLz4ExpansionRatio) blockSize ≤ usizeMax
  · have hsum := checkedAdd_eq_some.mpr ⟨rfl, hreach⟩
    rw [if_pos hreach, hsum]
    rfl
  · rw [if_neg hreach, checkedAdd, if_neg hreach]
    rfl

theorem scanBlocks_fits (blockSize : Nat) {footer : Bytes} {footerIndex blockIndex : Nat} {scan : BlockScan} {sizes : List Nat}
    (hfooter : footerIndex ≤ usizeMax) (htable : TableFrom footer blockIndex sizes)
    (hstart : scan.blockStart + total sizes ≤ footerIndex)
    (hframe : scan.frameCapacity + 4 * sizes.length + total sizes ≤ usizeMax)
    (hreach : scan.reachableUnzippedSize ≤ usizeMax) :
    scanBlocks footer footerIndex blockSize sizes.length blockIndex scan =
      if scan.reachableUnzippedSize + reach blockSize sizes ≤ usizeMax then .ok (scan.after blockSize sizes)
      else fails boundOverflowed := by
  induction sizes generalizing blockIndex scan with
  | nil =>
    rw [if_pos (by simpa [reach, total] using hreach)]
    rfl
  | cons size sizes ih =>
    obtain ⟨hsize, hrest⟩ := htable
    simp only [total, List.length_cons] at hstart hframe
    rw [List.length_cons, scanBlocks, scanBlock_fits hfooter hsize (by omega) (by omega)]
    have hsplit : reach blockSize (size :: sizes) = min (size * maxLz4ExpansionRatio) blockSize + reach blockSize sizes := rfl
    by_cases hnext : scan.reachableUnzippedSize + min (size * maxLz4ExpansionRatio) blockSize ≤ usizeMax
    · have hstart' : (scan.push blockSize size).blockStart + total sizes ≤ footerIndex := by
        simp only [BlockScan.push]
        omega
      have hframe' : (scan.push blockSize size).frameCapacity + 4 * sizes.length + total sizes ≤ usizeMax := by
        simp only [BlockScan.push]
        omega
      rw [if_pos hnext, Exec.ok_bind, ih hrest hstart' hframe' hnext, hsplit, ← Nat.add_assoc]
      rfl
    · rw [if_neg hnext, if_neg (by omega), fails_bind]

/-- The checks behind the scan, in the order they are made. -/
theorem validateBlocks_eq_ok {footer : Bytes} {footerIndex blockNum blockSize unzippedSize : Nat} {scan : BlockScan}
    (hindex : kxzipHeaderLength ≤ footerIndex)
    (h : validateBlocks footer footerIndex blockNum blockSize unzippedSize = .ok scan) :
    ∃ sizes, sizes.length = blockNum ∧ TableFrom footer 0 sizes ∧ scan = BlockScan.start.after blockSize sizes ∧
      kxzipHeaderLength + total sizes = footerIndex ∧ 0 ∉ sizes ∧ scan.Within footerIndex ∧
      unzippedSize ≤ scan.reachableUnzippedSize := by
  have hwithin : BlockScan.start.Within footerIndex := ⟨hindex, by decide, by decide, by decide⟩
  rw [validateBlocks, Exec.bind_eq_ok] at h
  obtain ⟨last, hscan, h⟩ := h
  obtain ⟨sizes, hcount, htable, rfl, hend⟩ := scanBlocks_eq_ok hwithin hscan
  obtain ⟨-, hstart, -, hempty⟩ := BlockScan.start.after_fields blockSize sizes
  by_cases hgap : (BlockScan.start.after blockSize sizes).blockStart ≠ footerIndex
  · rw [if_pos hgap, Exec.bind_eq_ok] at h
    obtain ⟨_, -, h⟩ := h
    cases h
  rw [if_neg hgap] at h
  by_cases hreach : (BlockScan.start.after blockSize sizes).reachableUnzippedSize < unzippedSize
  · rw [if_pos hreach, Exec.bind_eq_ok] at h
    obtain ⟨_, -, h⟩ := h
    cases h
  rw [if_neg hreach] at h
  by_cases hsome : (BlockScan.start.after blockSize sizes).hasEmptyBlock = true
  · rw [if_pos hsome] at h
    cases h
  rw [if_neg hsome] at h
  obtain rfl := Except.ok.inj h
  refine ⟨sizes, hcount, htable, rfl, ?_, ?_, hend, Nat.not_lt.mp hreach⟩
  · rw [not_not, hstart] at hgap
    exact hgap
  · intro hzero
    exact hsome (hempty.mpr (.inr hzero))

theorem noPanic_scanBlocks {footer : Bytes} {footerIndex blockSize : Nat} (count blockIndex : Nat) (scan : BlockScan) :
    NoPanic (scanBlocks footer footerIndex blockSize count blockIndex scan) := by
  induction count generalizing blockIndex scan with
  | zero => exact noPanic_ok _
  | succ count ih =>
    rw [scanBlocks]
    apply NoPanic.bind
    · rw [scanBlock]
      apply (noPanic_lz4BlockSize _ _).bind
      intro size _
      apply (noPanic_orFails _ _).bind
      intro blockEnd _
      split
      · exact noPanic_fails _
      · apply (noPanic_orFails _ _).bind
        intro frameCapacity _
        apply (noPanic_orFails _ _).bind
        intro reachable _
        exact noPanic_ok _
    · intro next _
      exact ih _ next

theorem noPanic_validateBlocks {footer : Bytes} {footerIndex blockNum blockSize unzippedSize : Nat}
    (hindex : kxzipHeaderLength ≤ footerIndex) :
    NoPanic (validateBlocks footer footerIndex blockNum blockSize unzippedSize) := by
  have hwithin : BlockScan.start.Within footerIndex := ⟨hindex, by decide, by decide, by decide⟩
  rw [validateBlocks]
  apply (noPanic_scanBlocks _ _ _).bind
  intro scan hscan
  obtain ⟨sizes, -, -, -, hend⟩ := scanBlocks_eq_ok hwithin hscan
  split
  · -- the blocks end before the footer, so the difference is a number
    rw [subtract, if_pos hend.1]
    exact noPanic_fails _
  · split
    · rw [subtract, if_pos hindex]
      exact noPanic_fails _
    · split
      · exact noPanic_fails _
      · exact noPanic_ok _

/-! ## The second pass over the same table -/

/-- The data cut into pieces of these sizes. -/
def cut : Bytes → List Nat → List Bytes
  | _, [] => []
  | data, size :: sizes => data.take size :: cut (data.drop size) sizes

/-- A block as it stands in the frame. -/
def frameBlock (block : Bytes) : Bytes := LittleEndian.encode 4 block.length ++ block

theorem cut_lengths {data : Bytes} {sizes : List Nat} (h : total sizes ≤ data.length) :
    (cut data sizes).map List.length = sizes := by
  induction sizes generalizing data with
  | nil => rfl
  | cons size sizes ih =>
    simp only [total] at h
    have hrest : total sizes ≤ (data.drop size).length := by
      rw [List.length_drop]
      omega
    rw [cut, List.map_cons, ih hrest, List.length_take_of_le (by omega)]

theorem flatten_cut {data : Bytes} {sizes : List Nat} : (cut data sizes).flatten = data.take (total sizes) := by
  induction sizes generalizing data with
  | nil => simp [cut, total]
  | cons size sizes ih => rw [cut, List.flatten_cons, ih, total, List.take_add]

theorem total_lengths (blocks : List Bytes) : total (blocks.map List.length) = blocks.flatten.length := by
  induction blocks with
  | nil => rfl
  | cons block blocks ih => rw [List.map_cons, total, ih, List.flatten_cons, List.length_append]

theorem copyBlocks_eq {buf footer : Bytes} {sizes : List Nat} {blockIndex blockStart : Nat} {zippedBytes : Bytes}
    (htable : TableFrom footer blockIndex sizes) (hend : blockStart + total sizes ≤ buf.length)
    (hlast : blockStart + total sizes ≤ usizeMax) :
    copyBlocks buf footer sizes.length blockIndex blockStart zippedBytes =
      .ok (zippedBytes ++ (cut (buf.drop blockStart) sizes).flatMap frameBlock) := by
  induction sizes generalizing blockIndex blockStart zippedBytes with
  | nil => simp [copyBlocks, cut]
  | cons size sizes ih =>
    obtain ⟨hsize, hrest⟩ := htable
    simp only [total] at hend hlast
    have hstop : checkedAdd blockStart size = some (blockStart + size) := checkedAdd_eq_some.mpr ⟨rfl, by omega⟩
    have hblock : getRange buf blockStart (blockStart + size) = some ((buf.drop blockStart).take size) :=
      getRange_eq_some.mpr ⟨by omega, by omega, by rw [Nat.add_sub_cancel_left]⟩
    have hlength : ((buf.drop blockStart).take size).length = size := by
      rw [List.length_take, List.length_drop]
      omega
    simp only [copyBlocks, List.length_cons, hsize, Exec.ok_bind, hstop, hblock, orFails_some]
    rw [ih hrest (by omega) (by omega), cut, List.flatMap_cons, List.drop_drop, frameBlock, hlength]
    simp only [List.append_assoc]

theorem frame_length (blocks : List Bytes) :
    (blocks.flatMap frameBlock).length = 4 * blocks.length + blocks.flatten.length := by
  induction blocks with
  | nil => rfl
  | cons block blocks ih =>
    rw [List.flatMap_cons, List.length_append, ih, frameBlock, List.length_append, LittleEndian.encode_length,
      List.flatten_cons, List.length_append, List.length_cons]
    omega

/-! ## Accepted files -/

/-- The sizes the footer declares: of the whole output, and of a block of it. -/
def declaredSize (footer : Bytes) : Nat := LittleEndian.decode ((footer.drop 8).take 8)

def declaredBlockSize (footer : Bytes) : Nat := LittleEndian.decode ((footer.drop 24).take 8)

/-- The blocks of the footer's table stand one behind the other from the header to the footer. -/
structure Tiles (buf : Bytes) (footerIndex blockNum : Nat) (blocks : List Bytes) : Prop where
  inside : kxzipHeaderLength ≤ footerIndex ∧ footerIndex ≤ buf.length
  count : blocks.length = blockNum
  sizes : ∀ i (h : i < blocks.length), lz4BlockSize (buf.drop footerIndex) i = .ok blocks[i].length
  cover : (buf.take footerIndex).drop kxzipHeaderLength = blocks.flatten

theorem Tiles.table {buf : Bytes} {footerIndex blockNum : Nat} {blocks : List Bytes}
    (h : Tiles buf footerIndex blockNum blocks) : TableFrom (buf.drop footerIndex) 0 (blocks.map List.length) := by
  rw [tableFrom_iff]
  intro i hi
  rw [Nat.zero_add, List.getElem_map]
  exact h.sizes i (by simpa using hi)

theorem Tiles.total {buf : Bytes} {footerIndex blockNum : Nat} {blocks : List Bytes}
    (h : Tiles buf footerIndex blockNum blocks) :
    Io.total (blocks.map List.length) = footerIndex - kxzipHeaderLength := by
  have hinside := h.inside
  rw [total_lengths, ← h.cover, List.length_drop, List.length_take]
  omega

theorem tiles_cut {buf : Bytes} {footerIndex : Nat} {sizes : List Nat}
    (htable : TableFrom (buf.drop footerIndex) 0 sizes) (hcover : kxzipHeaderLength + total sizes = footerIndex)
    (hinside : footerIndex ≤ buf.length) :
    Tiles buf footerIndex sizes.length (cut (buf.drop kxzipHeaderLength) sizes) := by
  have hfits : total sizes ≤ (buf.drop kxzipHeaderLength).length := by
    rw [List.length_drop]
    omega
  have hlengths := cut_lengths hfits
  have hcount : (cut (buf.drop kxzipHeaderLength) sizes).length = sizes.length := by
    rw [← hlengths, List.length_map, hlengths]
  refine ⟨⟨by omega, hinside⟩, hcount, ?_, ?_⟩
  · intro i hi
    have hentry := tableFrom_iff.mp htable i (by omega)
    rw [Nat.zero_add] at hentry
    rw [hentry]
    congr 1
    rw [← List.getElem_map List.length]
    · simp only [hlengths]
    · rwa [List.length_map]
  · rw [flatten_cut, List.drop_take]
    congr 1
    omega

section

variable (xxh32 : Bytes → UInt32 → UInt32)

/-- The header of the frame: magic number, descriptor, declared size, checksum. -/
def frameHeader (footer : Bytes) (blockSize : Nat) : Bytes :=
  let described : Bytes := 104 :: blockDescriptor blockSize :: (footer.drop 8).take 8
  [4, 34, 77, 24] ++ described ++ [UInt8.ofNat ((xxh32 described 0).toNat / 256)]

/-- The frame the blocks are handed over in. -/
def frameOf (footer : Bytes) (blocks : List Bytes) : Bytes :=
  frameHeader xxh32 footer (declaredBlockSize footer) ++ blocks.flatMap frameBlock ++ [0, 0, 0, 0]

theorem frameHeader_length {footer : Bytes} (hfooter : 16 ≤ footer.length) (blockSize : Nat) :
    (frameHeader xxh32 footer blockSize).length = 15 := by
  simp only [frameHeader, List.length_append, List.length_cons, List.length_take, List.length_drop, List.length_nil]
  omega

theorem buildFrame_eq {buf footer : Bytes} {blockSize : Nat} {sizes : List Nat} (hfooter : 16 ≤ footer.length)
    (htable : TableFrom footer 0 sizes) (hend : kxzipHeaderLength + total sizes ≤ buf.length)
    (hlast : kxzipHeaderLength + total sizes ≤ usizeMax) :
    buildFrame xxh32 buf footer sizes.length blockSize =
      .ok (frameHeader xxh32 footer blockSize ++ (cut (buf.drop kxzipHeaderLength) sizes).flatMap frameBlock ++
        [0, 0, 0, 0]) := by
  have hdeclared : sliceRange footer 8 16 = .ok ((footer.drop 8).take 8) :=
    sliceRange_eq_ok.mpr (getRange_eq_some.mpr ⟨by omega, hfooter, rfl⟩)
  have hdescribed : ∀ descriptor : UInt8, ∀ declared : Bytes,
      sliceRange ([4, 34, 77, 24, 104, descriptor] ++ declared) 4 ([4, 34, 77, 24, 104, descriptor] ++ declared).length =
        .ok (104 :: descriptor :: declared) := by
    intro descriptor declared
    refine sliceRange_eq_ok.mpr (getRange_eq_some.mpr ⟨by simp, Nat.le_refl _, ?_⟩)
    rw [List.take_of_length_le (by simp)]
    rfl
  have hchecksum : ∀ n : Nat, index (LittleEndian.encode 4 n) 1 = .ok (UInt8.ofNat (n / 256)) := fun n => rfl
  simp only [buildFrame, hdeclared, Exec.ok_bind, hdescribed, hchecksum, copyBlocks_eq htable hend hlast]
  simp only [frameHeader, List.cons_append, List.nil_append]

end

/-! ## Reading the frame back -/

theorem reserveFor_eq_ok {heap : Heap} {size : Nat} {what : String} (h : reserveFor heap size what = .ok ()) :
    size ≤ isizeMax := by
  obtain ⟨larger, -, -, hroom, hmax⟩ | ⟨error, herror, -⟩ :=
    tryReserveExact_cases heap (show Buffer.empty.capacity ≤ isizeMax from Nat.zero_le _) size
  · simp only [Buffer.empty, List.length_nil] at hroom
    omega
  · rw [reserveFor, herror] at h
    cases h

theorem noPanic_reserveFor (heap : Heap) (size : Nat) (what : String) : NoPanic (reserveFor heap size what) := by
  rw [reserveFor]
  split
  · exact noPanic_ok _
  · exact noPanic_fails _

theorem orDecompressionError_eq_ok {α : Type} {result : Exec α} {a : α} :
    orDecompressionError result = .ok a ↔ result = .ok a := by
  match result with
  | .ok b => rfl
  | .error (.error e) => simp [orDecompressionError]
  | .error .panic => rfl

theorem noPanic_orDecompressionError {α : Type} {result : Exec α} (h : NoPanic result) :
    NoPanic (orDecompressionError result) := by
  match result, h with
  | .ok a, _ => exact noPanic_ok a
  | .error (.error e), _ => exact noPanic_err _

theorem readExact_length {want : Nat} {stream rest : QStream} {bytes : Bytes}
    (h : readExact want stream = .ok (bytes, rest)) : bytes.length = want := by
  by_cases hlong : want ≤ (Incoming.content stream).length
  · obtain ⟨_, hfull, -⟩ := Connector.readExact_full hlong
    obtain ⟨rfl, -⟩ := Prod.mk.inj (Except.ok.inj (hfull.symm.trans h))
    exact List.length_take_of_le hlong
  · obtain ⟨e, herr⟩ := Connector.readExact_short (Nat.not_le.mp hlong)
    cases herr.symm.trans h

theorem noPanic_readExact (want : Nat) (stream : QStream) : NoPanic (readExact want stream) := by
  rw [readExact]
  split
  · exact noPanic_ok _
  · exact noPanic_err _
  · exact noPanic_err _

theorem noPanic_readTrailing (stream : QStream) : NoPanic (readTrailing stream) := by
  match stream with
  | [] => exact noPanic_ok _
  | .data b _ :: _ => exact noPanic_ok _
  | .interrupted :: _ => exact noPanic_err _
  | .failed e :: _ => exact noPanic_err _

theorem decodeFrame_eq_ok {decoder : FrameDecoder} {zippedBytes output : Bytes} {unzippedSize : Nat}
    (h : decodeFrame decoder zippedBytes unzippedSize = .ok output) :
    ∃ rest, readExact unzippedSize (decoder.reads zippedBytes) = .ok (output, rest) := by
  rw [decodeFrame, Exec.bind_eq_ok] at h
  obtain ⟨⟨bytes, rest⟩, hread, h⟩ := h
  rw [orDecompressionError_eq_ok] at hread
  rw [Exec.bind_eq_ok] at h
  obtain ⟨trailing, -, h⟩ := h
  by_cases hnone : trailing.length = 0
  · rw [if_pos hnone] at h
    by_cases hposition : decoder.position zippedBytes ≠ zippedBytes.length
    · rw [if_pos hposition] at h
      cases h
    · rw [if_neg hposition] at h
      obtain rfl := Except.ok.inj h
      exact ⟨rest, hread⟩
  · rw [if_neg hnone] at h
    cases h

theorem noPanic_decodeFrame (decoder : FrameDecoder) (zippedBytes : Bytes) (unzippedSize : Nat) :
    NoPanic (decodeFrame decoder zippedBytes unzippedSize) := by
  rw [decodeFrame]
  apply (noPanic_orDecompressionError (noPanic_readExact _ _)).bind
  intro result _
  apply (noPanic_orDecompressionError (noPanic_readTrailing _)).bind
  intro trailing _
  split
  · split
    · exact noPanic_fails _
    · exact noPanic_ok _
  · exact noPanic_fails _

section

variable {heap : Heap} {xxh32 : Bytes → UInt32 → UInt32} {decoder : FrameDecoder} {buf : Bytes} {footerIndex blockNum : Nat}

/-- What the checks before the first pass leave. -/
structure Prepared (buf : Bytes) (footerIndex : Nat) : Prop where
  header : kxzipHeaderLength ≤ footerIndex
  inside : footerIndex ≤ buf.length
  words : 40 ≤ (buf.drop footerIndex).length

/-- The two passes, the reservations and the decoder, behind the checks of the footer. -/
def unzipBlocks (heap : Heap) (xxh32 : Bytes → UInt32 → UInt32) (decoder : FrameDecoder) (buf : Bytes)
    (footerIndex blockNum : Nat) : Exec Bytes := do
  let footer := buf.drop footerIndex
  let scan ← validateBlocks footer footerIndex blockNum (declaredBlockSize footer) (declaredSize footer)
  reserveFor heap scan.frameCapacity "LZ4 frame"
  let zippedBytes ← buildFrame xxh32 buf footer blockNum (declaredBlockSize footer)
  reserveFor heap (declaredSize footer) "output"
  decodeFrame decoder zippedBytes (declaredSize footer)

theorem kxzipUsize_slice {footer bytes : Bytes} {start : Nat} {description : String}
    (h : getRange footer start (start + 8) = some bytes) :
    kxzipUsize bytes description = .ok (LittleEndian.decode ((footer.drop start).take 8)) := by
  have hlength := getRange_length h
  obtain ⟨-, -, rfl⟩ := getRange_eq_some.mp h
  rw [kxzipUsize, if_pos (by omega), Nat.add_sub_cancel_left]

/-- A file fails one of the checks of its footer, or it comes to the blocks. -/
theorem unzipLz4_cases (heap : Heap) (xxh32 : Bytes → UInt32 → UInt32) (decoder : FrameDecoder) (buf : Bytes)
    (footerIndex blockNum : Nat) :
    (∃ message, unzipLz4 heap xxh32 decoder buf footerIndex blockNum = fails message) ∨
      Prepared buf footerIndex ∧ unzipLz4 heap xxh32 decoder buf footerIndex blockNum =
        unzipBlocks heap xxh32 decoder buf footerIndex blockNum := by
  rw [unzipLz4]
  by_cases hmagic : kxzipMagic.isPrefixOf buf = false
  · exact .inl ⟨_, by rw [if_pos hmagic]⟩
  rw [if_neg hmagic]
  by_cases hheader : footerIndex < kxzipHeaderLength
  · exact .inl ⟨_, by rw [if_pos hheader]⟩
  rw [if_neg hheader]
  cases hwords : (checkedAdd blockNum kxzipFixedFooterWords).bind fun words => checkedMul words kxzipFooterWordLength with
  | none => exact .inl ⟨_, by rw [kxzipFooterLength, hwords]; rfl⟩
  | some expected =>
    obtain ⟨words, hsum, hproduct⟩ := Option.bind_eq_some_iff.mp hwords
    rw [checkedAdd_eq_some, kxzipFixedFooterWords] at hsum
    rw [checkedMul_eq_some, kxzipFooterWordLength] at hproduct
    simp only [kxzipFooterLength, hwords, orFails_some, Exec.ok_bind, getFrom]
    by_cases hinside : footerIndex ≤ buf.length
    swap
    · exact .inl ⟨_, by rw [if_neg hinside]; rfl⟩
    rw [if_pos hinside, orFails_some, Exec.ok_bind]
    by_cases hlength : (buf.drop footerIndex).length ≠ expected
    · exact .inl ⟨_, by rw [if_pos hlength]⟩
    rw [if_neg hlength]
    have hforty : 40 ≤ (buf.drop footerIndex).length := by omega
    by_cases halgorithm : (buf.drop footerIndex)[4]? ≠ some 4
    · exact .inl ⟨_, by rw [if_pos halgorithm]⟩
    rw [if_neg halgorithm]
    obtain ⟨blockSizeBytes, hblockSize⟩ : ∃ bytes, getRange (buf.drop footerIndex) 24 32 = some bytes :=
      ⟨_, getRange_eq_some.mpr ⟨by omega, by omega, rfl⟩⟩
    obtain ⟨sizeBytes, hsize⟩ : ∃ bytes, getRange (buf.drop footerIndex) 8 16 = some bytes :=
      ⟨_, getRange_eq_some.mpr ⟨by omega, by omega, rfl⟩⟩
    simp only [hblockSize, hsize, orFails_some, Exec.ok_bind, kxzipUsize_slice hblockSize, kxzipUsize_slice hsize]
    by_cases hunsupported : ¬ (2 ^ 12 ≤ declaredBlockSize (buf.drop footerIndex) ∧
        declaredBlockSize (buf.drop footerIndex) ≤ 2 ^ 22) ∨ isPowerOfTwo (declaredBlockSize (buf.drop footerIndex)) = false
    · exact .inl ⟨_, if_pos hunsupported⟩
    · exact .inr ⟨⟨Nat.not_lt.mp hheader, hinside, hforty⟩, if_neg hunsupported⟩

/-- What reaches the decoder for a file that is accepted. -/
structure HandedOver (xxh32 : Bytes → UInt32 → UInt32) (decoder : FrameDecoder) (buf : Bytes)
    (footerIndex blockNum : Nat) (output : Bytes) (blocks : List Bytes) (scan : BlockScan) : Prop where
  tiles : Tiles buf footerIndex blockNum blocks
  nonempty : ∀ block ∈ blocks, block ≠ []
  validated : validateBlocks (buf.drop footerIndex) footerIndex blockNum (declaredBlockSize (buf.drop footerIndex))
    (declaredSize (buf.drop footerIndex)) = .ok scan
  covered : scan.blockStart = footerIndex
  within : scan.Within footerIndex
  capacity : (frameOf xxh32 (buf.drop footerIndex) blocks).length = scan.frameCapacity ∧ scan.frameCapacity ≤ isizeMax
  decoded : ∃ rest, readExact (declaredSize (buf.drop footerIndex))
    (decoder.reads (frameOf xxh32 (buf.drop footerIndex) blocks)) = .ok (output, rest)
  declared : output.length = declaredSize (buf.drop footerIndex)

theorem unzipBlocks_eq_ok {output : Bytes} (hprepared : Prepared buf footerIndex)
    (h : unzipBlocks heap xxh32 decoder buf footerIndex blockNum = .ok output) :
    ∃ blocks scan, HandedOver xxh32 decoder buf footerIndex blockNum output blocks scan := by
  obtain ⟨hheader, hinside, hforty⟩ := hprepared
  rw [unzipBlocks, Exec.bind_eq_ok] at h
  obtain ⟨scan, hvalid, h⟩ := h
  obtain ⟨sizes, rfl, htable, hscan, hcover, hzero, hwithin, -⟩ := validateBlocks_eq_ok hheader hvalid
  rw [Exec.bind_eq_ok] at h
  obtain ⟨_, hreserved, h⟩ := h
  obtain ⟨hframe, hstart, -, -⟩ := BlockScan.start.after_fields (declaredBlockSize (buf.drop footerIndex)) sizes
  rw [← hscan] at hframe hstart
  have hstop : scan.blockStart = footerIndex := hstart.trans hcover
  have hlast : kxzipHeaderLength + total sizes ≤ usizeMax := by
    rw [hcover, ← hstop]
    exact hwithin.2.1
  have htiles := tiles_cut htable hcover hinside
  rw [buildFrame_eq xxh32 (by omega) htable (by omega) hlast, Exec.ok_bind, Exec.bind_eq_ok] at h
  obtain ⟨_, -, h⟩ := h
  obtain ⟨rest, hread⟩ := decodeFrame_eq_ok h
  generalize hblocks : cut (buf.drop kxzipHeaderLength) sizes = blocks at htiles hread
  refine ⟨blocks, scan, htiles, ?_, hvalid, hstop, hwithin, ⟨?_, reserveFor_eq_ok hreserved⟩, ⟨rest, hread⟩,
    readExact_length hread⟩
  · rintro block hmem rfl
    have hlengths : blocks.map List.length = sizes := by
      rw [← hblocks]
      apply cut_lengths
      rw [List.length_drop]
      omega
    apply hzero
    rw [← hlengths]
    exact List.mem_map.mpr ⟨[], hmem, rfl⟩
  · have htotal : blocks.flatten.length = total sizes := by
      rw [← htiles.cover, List.length_drop, List.length_take]
      omega
    rw [frameOf, List.length_append, List.length_append, frameHeader_length xxh32 (by omega), frame_length, htiles.count,
      htotal, hframe]
    simp only [BlockScan.start, List.length_cons, List.length_nil]
    omega

theorem noPanic_unzipBlocks (hprepared : Prepared buf footerIndex) :
    NoPanic (unzipBlocks heap xxh32 decoder buf footerIndex blockNum) := by
  obtain ⟨hheader, hinside, hforty⟩ := hprepared
  rw [unzipBlocks]
  apply (noPanic_validateBlocks hheader).bind
  intro scan hvalid
  obtain ⟨sizes, rfl, htable, hscan, hcover, -, hwithin, -⟩ := validateBlocks_eq_ok hheader hvalid
  obtain ⟨-, hstart, -, -⟩ := BlockScan.start.after_fields (declaredBlockSize (buf.drop footerIndex)) sizes
  have hlast : kxzipHeaderLength + total sizes ≤ usizeMax := by
    rw [← hscan] at hstart
    exact hstart ▸ hwithin.2.1
  apply (noPanic_reserveFor _ _ _).bind
  intro _ _
  rw [buildFrame_eq xxh32 (by omega) htable (by omega) hlast, Exec.ok_bind]
  apply (noPanic_reserveFor _ _ _).bind
  intro _ _
  exact noPanic_decodeFrame _ _ _

theorem unzipLz4_eq_ok {output : Bytes} (h : unzipLz4 heap xxh32 decoder buf footerIndex blockNum = .ok output) :
    ∃ blocks scan, HandedOver xxh32 decoder buf footerIndex blockNum output blocks scan := by
  obtain ⟨message, hfails⟩ | ⟨hprepared, heq⟩ := unzipLz4_cases heap xxh32 decoder buf footerIndex blockNum
  · cases hfails.symm.trans h
  · exact unzipBlocks_eq_ok hprepared (heq.symm.trans h)

/-- The number of blocks is the file's last word, and the footer it measures is the file's end. -/
theorem unzip_eq_ok {output : Bytes} (h : unzip heap xxh32 decoder buf = .ok output) :
    ∃ footerIndex blockNum, footerIndex + 8 * (blockNum + 5) = buf.length ∧
      blockNum = LittleEndian.decode (buf.drop (buf.length - 8)) ∧
      ∃ blocks scan, HandedOver xxh32 decoder buf footerIndex blockNum output blocks scan := by
  rw [unzip] at h
  by_cases hmagic : kxzipMagic.isPrefixOf buf = false
  · rw [if_pos hmagic] at h
    cases h
  rw [if_neg hmagic, Exec.bind_eq_ok] at h
  obtain ⟨blockCountStart, hstart, h⟩ := h
  rw [orFails_eq_ok, checkedSub, kxzipFooterWordLength] at hstart
  by_cases hword : 8 ≤ buf.length
  swap
  · rw [if_neg hword] at hstart
    cases hstart
  rw [if_pos hword] at hstart
  obtain rfl := Option.some.inj hstart
  have hcount : sliceRange buf (buf.length - 8) buf.length = .ok (buf.drop (buf.length - 8)) := by
    refine sliceRange_eq_ok.mpr (getRange_eq_some.mpr ⟨by omega, by omega, ?_⟩)
    rw [List.take_of_length_le]
    rw [List.length_drop]
  rw [hcount, Exec.ok_bind, kxzipUsize, if_pos (by rw [List.length_drop]; omega), Exec.ok_bind, Exec.bind_eq_ok] at h
  obtain ⟨footerLength, hfooter, h⟩ := h
  rw [kxzipFooterLength, orFails_eq_ok, Option.bind_eq_some_iff] at hfooter
  obtain ⟨words, hwords, hproduct⟩ := hfooter
  rw [checkedAdd_eq_some, kxzipFixedFooterWords] at hwords
  rw [checkedMul_eq_some, kxzipFooterWordLength] at hproduct
  rw [Exec.bind_eq_ok] at h
  obtain ⟨footerIndex, hindex, h⟩ := h
  rw [orFails_eq_ok, checkedSub] at hindex
  by_cases hlong : footerLength ≤ buf.length
  swap
  · rw [if_neg hlong] at hindex
    cases hindex
  rw [if_pos hlong] at hindex
  obtain rfl := Option.some.inj hindex
  by_cases hheader : buf.length - footerLength < kxzipHeaderLength
  · rw [if_pos hheader] at h
    cases h
  rw [if_neg hheader, Exec.bind_eq_ok] at h
  obtain ⟨algorithmIndex, -, h⟩ := h
  rw [Exec.bind_eq_ok] at h
  obtain ⟨algorithm, -, h⟩ := h
  by_cases hlz4 : algorithm = 4
  · rw [if_pos hlz4] at h
    exact ⟨_, _, by omega, rfl, unzipLz4_eq_ok h⟩
  · rw [if_neg hlz4] at h
    cases h

end

/-! ## Files with decodable blocks -/

/-- Every block is an LZ4 block and decodes to no more than `blockSize` bytes. -/
def DecodeTo (blockSize : Nat) : List Bytes → List Bytes → Prop :=
  List.Forall₂ fun block output => Lz4.decodeBlock block = some output ∧ output.length ≤ blockSize

theorem DecodeTo.reach {blockSize : Nat} {blocks outputs : List Bytes} (h : DecodeTo blockSize blocks outputs) :
    outputs.flatten.length ≤ Io.reach blockSize (blocks.map List.length) := by
  induction h with
  | nil => exact Nat.zero_le _
  | cons hblock _ ih =>
    have hexpansion := Lz4.decodeBlock_bound hblock.1
    have hsize := hblock.2
    simp only [Io.reach, List.map_cons, List.map_map, total, List.flatten_cons, List.length_append,
      maxLz4ExpansionRatio] at ih ⊢
    omega

theorem DecodeTo.nonempty {blockSize : Nat} {blocks outputs : List Bytes} (h : DecodeTo blockSize blocks outputs) :
    0 ∉ blocks.map List.length := by
  induction h with
  | nil => simp
  | cons hblock _ ih =>
    have hexpansion := Lz4.decodeBlock_bound hblock.1
    rw [List.map_cons, List.mem_cons, not_or]
    exact ⟨by omega, ih⟩

theorem reach_le (blockSize : Nat) (sizes : List Nat) : reach blockSize sizes ≤ maxLz4ExpansionRatio * total sizes := by
  induction sizes with
  | nil => exact Nat.zero_le _
  | cons size sizes ih =>
    simp only [reach, List.map_cons, total, maxLz4ExpansionRatio] at ih ⊢
    omega

theorem Tiles.frame_fits {buf : Bytes} {footerIndex blockNum : Nat} {blocks : List Bytes}
    (h : Tiles buf footerIndex blockNum blocks) (hbuf : buf.length ≤ isizeMax) :
    BlockScan.start.frameCapacity + 4 * blockNum + (footerIndex - kxzipHeaderLength) ≤ usizeMax := by
  have hinside := h.inside
  have hcount := h.count
  simp only [BlockScan.start, kxzipHeaderLength, isizeMax, usizeMax] at *
  by_cases hnone : blockNum = 0
  · omega
  · have hlast := (lz4BlockSize_bounds (h.sizes (blockNum - 1) (by omega))).2
    rw [List.length_drop] at hlast
    omega

/-- The reachability check lets a decodable file pass. Only a bound that leaves `usize` stops
it, for which the compressed data must be longer than `usizeMax / 255` bytes. -/
theorem validateBlocks_decodable {buf : Bytes} {footerIndex blockNum blockSize : Nat} {blocks outputs : List Bytes}
    (hbuf : buf.length ≤ isizeMax) (htiles : Tiles buf footerIndex blockNum blocks)
    (hdecode : DecodeTo blockSize blocks outputs) :
    (∃ scan, validateBlocks (buf.drop footerIndex) footerIndex blockNum blockSize outputs.flatten.length = .ok scan) ∨
      usizeMax < maxLz4ExpansionRatio * (footerIndex - kxzipHeaderLength) ∧
        validateBlocks (buf.drop footerIndex) footerIndex blockNum blockSize outputs.flatten.length =
          fails boundOverflowed := by
  obtain ⟨hheader, hinside⟩ := htiles.inside
  have htotal := htiles.total
  have hframe := htiles.frame_fits hbuf
  have hcount : (blocks.map List.length).length = blockNum := by rw [List.length_map, htiles.count]
  have hreach := hdecode.reach
  have hbound := reach_le blockSize (blocks.map List.length)
  obtain ⟨-, hstart, hreached, hempty⟩ := BlockScan.start.after_fields blockSize (blocks.map List.length)
  have hfooter : footerIndex ≤ usizeMax := hinside.trans (hbuf.trans (by decide))
  have hlast : BlockScan.start.blockStart + total (blocks.map List.length) = footerIndex := by
    rw [htotal]
    exact Nat.add_sub_cancel' hheader
  have hscan := scanBlocks_fits blockSize hfooter htiles.table hlast.le
    (by rw [hcount, htotal]; exact hframe) (Nat.zero_le _)
  rw [hcount] at hscan
  rw [validateBlocks, hscan]
  have hzero : BlockScan.start.reachableUnzippedSize = 0 := rfl
  by_cases hfits : BlockScan.start.reachableUnzippedSize + reach blockSize (blocks.map List.length) ≤ usizeMax
  · have hblocks : ¬ (BlockScan.start.after blockSize (blocks.map List.length)).hasEmptyBlock = true := by
      rw [hempty]
      exact not_or.mpr ⟨by decide, hdecode.nonempty⟩
    refine .inl ⟨BlockScan.start.after blockSize (blocks.map List.length), ?_⟩
    rw [if_pos hfits, Exec.ok_bind, if_neg (not_not.mpr (hstart.trans hlast)), if_neg (by omega), if_neg hblocks]
  · rw [htotal] at hbound
    refine .inr ⟨by omega, ?_⟩
    rw [if_neg hfits, fails_bind]

/-- **The block layout**: no run panics; what an accepted file hands to the decoder are its
nonempty blocks, in order and without a gap from the header to the footer, under the sizes the
first pass checked; and decodable blocks that give the declared size pass the first pass. -/
theorem kxzip_block_layout (heap : Heap) (xxh32 : Bytes → UInt32 → UInt32) (decoder : FrameDecoder) (buf : Bytes)
    (footerIndex blockNum : Nat) :
    NoPanic (unzipLz4 heap xxh32 decoder buf footerIndex blockNum) ∧
      (∀ output, unzipLz4 heap xxh32 decoder buf footerIndex blockNum = .ok output →
        ∃ blocks scan, HandedOver xxh32 decoder buf footerIndex blockNum output blocks scan) ∧
      ∀ blocks outputs, buf.length ≤ isizeMax → Tiles buf footerIndex blockNum blocks →
        DecodeTo (declaredBlockSize (buf.drop footerIndex)) blocks outputs →
        outputs.flatten.length = declaredSize (buf.drop footerIndex) →
        (∃ scan, validateBlocks (buf.drop footerIndex) footerIndex blockNum (declaredBlockSize (buf.drop footerIndex))
          (declaredSize (buf.drop footerIndex)) = .ok scan) ∨
        usizeMax < maxLz4ExpansionRatio * (footerIndex - kxzipHeaderLength) ∧
          validateBlocks (buf.drop footerIndex) footerIndex blockNum (declaredBlockSize (buf.drop footerIndex))
            (declaredSize (buf.drop footerIndex)) = fails boundOverflowed := by
  refine ⟨?_, ?_, ?_⟩
  · obtain ⟨message, hfails⟩ | ⟨hprepared, heq⟩ := unzipLz4_cases heap xxh32 decoder buf footerIndex blockNum
    · rw [hfails]
      exact noPanic_fails _
    · rw [heq]
      exact noPanic_unzipBlocks hprepared
  · intro output h
    exact unzipLz4_eq_ok h
  · intro blocks outputs hbuf htiles hdecode hdeclared
    rw [← hdeclared]
    exact validateBlocks_decodable hbuf htiles hdecode

/-- One block, a literal: header, block and footer. -/
def oneBlockFile : Bytes :=
  kxzipMagic ++ [0x10, 97] ++ ([0, 0, 0, 0, 4, 0, 0, 0] ++ LittleEndian.encode 8 1 ++ LittleEndian.encode 8 0 ++
    LittleEndian.encode 8 4096 ++ LittleEndian.encode 8 2 ++ LittleEndian.encode 8 1)

/-- The decoder as it is over a frame with that one block. -/
def oneBlockDecoder : FrameDecoder := ⟨fun _ => [.data 97 []], List.length⟩

/-- `xxh32` of fewer than 16 bytes, two lanes and two more bytes as a frame's header has them. -/
def xxh32Short (input : Bytes) (seed : UInt32) : UInt32 :=
  let rotate (n bits : UInt32) := (n <<< bits) ||| (n >>> (32 - bits))
  let lane (hash : UInt32) (bytes : Bytes) :=
    rotate (hash + UInt32.ofNat (LittleEndian.decode bytes) * 3266489917) 17 * 668265263
  let single (hash : UInt32) (byte : UInt8) := rotate (hash + byte.toUInt32 * 374761393) 11 * 2654435761
  let hash := seed + 374761393 + UInt32.ofNat input.length
  let hash := lane (lane hash (input.take 4)) ((input.drop 4).take 4)
  let hash := (input.drop 8).foldl single hash
  let hash := (hash ^^^ (hash >>> 15)) * 2246822519
  let hash := (hash ^^^ (hash >>> 13)) * 3266489917
  hash ^^^ (hash >>> 16)

theorem kxzip_block_layout_one :
    unzip exactHeap xxh32Short oneBlockDecoder oneBlockFile = .ok [97] ∧
      (∃ blocks scan, HandedOver xxh32Short oneBlockDecoder oneBlockFile 10 1 [97] blocks scan) ∧
      ∃ scan, validateBlocks (oneBlockFile.drop 10) 10 1 4096 1 = .ok scan := by
  obtain ⟨-, haccepted, hdecodable⟩ := kxzip_block_layout exactHeap xxh32Short oneBlockDecoder oneBlockFile 10 1
  refine ⟨by rfl, haccepted [97] (by rfl), ?_⟩
  have htiles : Tiles oneBlockFile 10 1 [[0x10, 97]] := by
    refine ⟨by decide, rfl, ?_, by rfl⟩
    intro i hi
    obtain rfl : i = 0 := Nat.lt_one_iff.mp hi
    rfl
  have hdecode : DecodeTo (declaredBlockSize (oneBlockFile.drop 10)) [[0x10, 97]] [[97]] :=
    .cons ⟨by rfl, by decide⟩ .nil
  obtain hscan | ⟨hlarge, -⟩ := hdecodable _ _ (by decide) htiles hdecode (by rfl)
  · exact hscan
  · exact absurd hlarge (by decide)

end Xqdb.Io
