import Xqdb.Errors
import Xqdb.Lib.LittleEndian
import Mathlib.Logic.Function.Basic

/-! `compress` and `decompress` of `serde6.rs`. Both walk a frame with a
256-entry table from the exclusive or of two neighbouring bytes to the last
position such a pair was seen at. The compressor counts positions from the
start of the frame and marks an empty slot with 0; the decompressor counts
from the start of the body and marks it with `usize::MAX`. -/

namespace Xqdb.Compression

/-! ## Compression -/

/-- Locals of the `while` loop of `compress`. -/
structure Compressor where
  cVec : Bytes
  cPos : Nat
  nPos : Nat
  oPos : Nat
  x : UInt8 → Nat
  px : UInt8
  n : UInt8
  pPos : Nat
  i : UInt8

/-- Writes the length prefix and returns the offset compressed bytes begin at. -/
def writeDecompressedLengthPrefix (header : Bytes) (decompressedLength : Nat) :
    Exec (Bytes × Nat) :=
  if decompressedLength > u32Max then do
    let header ← setIndex header 2 2
    let header ← copyFromSlice header 8 (LittleEndian.encode 8 decompressedLength)
    .ok (header, 16)
  else do
    let header ← setIndex header 2 1
    let header ← copyFromSlice header 8 (LittleEndian.encode 4 decompressedLength)
    .ok (header, 12)

/-- Opens a group of eight operations when the previous one is full. `none` is
the early `return Ok(vec)` of a frame that does not shrink enough. -/
def beginGroup (s : Compressor) : Exec (Option Compressor) :=
  if s.i = 0 then do
    let limit ← subtract s.cVec.length 17
    if s.cPos > limit then .ok none
    else do
      let cVec ← setIndex s.cVec s.nPos s.n
      .ok (some { s with i := 1, cVec := cVec, nPos := s.cPos, cPos := s.cPos + 1, n := 0 })
  else .ok (some s)

/-- `(skip, x_pos, cx)` of one iteration. -/
def lookup (vec : Bytes) (s : Compressor) : Exec (Bool × Nat × UInt8) :=
  if vec.length - s.oPos < 3 then .ok (true, 0, 0)
  else do
    let a ← index vec s.oPos
    let b ← index vec (s.oPos + 1)
    let cx := a ^^^ b
    let xPos := s.x cx
    if xPos = 0 then .ok (true, xPos, cx)
    else do
      let c ← index vec xPos
      .ok (a != c, xPos, cx)

/-- Enters the pair of the previous literal, one iteration late. -/
def flushPending (s : Compressor) : Compressor :=
  if s.pPos > 0 then { s with x := Function.update s.x s.px s.pPos, pPos := 0 } else s

/-- `while o_pos < max_index && vec[x_pos] == vec[o_pos]`, returning `o_pos`. -/
def extendMatch (vec : Bytes) (maxIndex : Nat) : Nat → Nat → Nat → Exec Nat
  | 0, _, oPos => if oPos < maxIndex then Exec.panicked else .ok oPos
  | fuel + 1, xPos, oPos =>
    if oPos < maxIndex then do
      let a ← index vec xPos
      let b ← index vec oPos
      if a = b then extendMatch vec maxIndex fuel (xPos + 1) (oPos + 1) else .ok oPos
    else .ok oPos

def emitLiteral (vec : Bytes) (s : Compressor) (cx : UInt8) : Exec Compressor := do
  let b ← index vec s.oPos
  let cVec ← setIndex s.cVec s.cPos b
  .ok { s with px := cx, pPos := s.oPos, cVec := cVec, cPos := s.cPos + 1, oPos := s.oPos + 1 }

def emitReference (vec : Bytes) (s : Compressor) (xPos : Nat) (cx : UInt8) : Exec Compressor := do
  let start := s.oPos + 2
  let maxIndex := min (start + 255) vec.length
  let oPos ← extendMatch vec maxIndex 255 (xPos + 2) start
  let cVec ← setIndex s.cVec s.cPos cx
  let cVec ← setIndex cVec (s.cPos + 1) (UInt8.ofNat (oPos - start))
  .ok { s with x := Function.update s.x cx s.oPos, n := s.n ||| s.i, oPos := oPos, cVec := cVec,
               cPos := s.cPos + 2 }

/-- One operation of the open group. -/
def emitToken (vec : Bytes) (s : Compressor) : Exec Compressor := do
  let (skip, xPos, cx) ← lookup vec s
  let s := flushPending s
  if skip then emitLiteral vec s cx else emitReference vec s xPos cx

/-- One iteration of the `while` loop. -/
def compressStep (vec : Bytes) (s : Compressor) : Exec (Option Compressor) := do
  match ← beginGroup s with
  | none => .ok none
  | some s => do
    let s ← emitToken vec s
    .ok (some { s with i := s.i <<< 1 })

def compressLoop (vec : Bytes) : Nat → Compressor → Exec (Option Compressor)
  | 0, s => if s.oPos < vec.length then Exec.panicked else .ok (some s)
  | fuel + 1, s =>
    if s.oPos < vec.length then do
      match ← compressStep vec s with
      | none => .ok none
      | some s => compressLoop vec fuel s
    else .ok (some s)

/-- Fills in the last flag byte and the frame header, and cuts the buffer. -/
def sealFrame (vec : Bytes) (s : Compressor) : Exec Bytes := do
  let cVec ← setIndex s.cVec s.nPos s.n
  let first ← index vec 0
  let cVec ← setIndex cVec 0 first
  let second ← index vec 1
  let cVec ← setIndex cVec 1 second
  let cVec ← copyFromSlice cVec 4 (LittleEndian.encode 4 s.cPos)
  let cVec ← setIndex cVec 3 (UInt8.ofNat (s.cPos / 2 ^ 32))
  .ok (cVec.take s.cPos ++ List.replicate (s.cPos - cVec.length) 0)

def compress (vec : Bytes) : Exec Bytes :=
  if vec.length < 2000 then .ok vec
  else do
    let (cVec, cPos) ←
      writeDecompressedLengthPrefix (List.replicate (vec.length / 2) 0) vec.length
    let start : Compressor :=
      { cVec := cVec, cPos := cPos, nPos := cPos, oPos := 8, x := fun _ => 0, px := 0, n := 0,
        pPos := 0, i := 0 }
    match ← compressLoop vec vec.length start with
    | none => .ok vec
    | some s => sealFrame vec s

/-! ## Decompression -/

def deserializationErr {α : Type} (message : String) : Exec α :=
  Exec.err (.DeserializationErr message)

def takeCompressedByte (bytes : Bytes) (position : Nat) (context : String) : Exec (UInt8 × Nat) := do
  let value ← Exec.okOr bytes[position]?
    (.DeserializationErr s!"compressed data ends before its {context} byte")
  let position ← Exec.okOr (checkedAdd position 1)
    (.DeserializationErr "compressed-data position overflowed")
  .ok (value, position)

def invalidOffset : Nat := usizeMax

/-- Locals of the `while` loop of `decompress`. -/
structure Decompressor where
  deVec : Bytes
  compressedPosition : Nat
  outputPosition : Nat
  hashPosition : Nat
  flags : UInt8
  mask : UInt8
  dictionary : UInt8 → Nat

/-- `for index in 0..run_length { de_vec[output + index] = de_vec[source + index] }`. -/
def copyForward (source output : Nat) : Nat → Bytes → Exec Bytes
  | 0, deVec => .ok deVec
  | count + 1, deVec => do
    let b ← index deVec source
    let deVec ← setIndex deVec output b
    copyForward (source + 1) (output + 1) count deVec

/-- `copy_within(source..source_end, output)`. -/
def copyWithin (source sourceEnd output : Nat) (deVec : Bytes) : Exec Bytes := do
  let run ← sliceRange deVec source sourceEnd
  copyFromSlice deVec output run

/-- A block copy where source and target do not overlap, else byte by byte. -/
def copyRun (source runLength output : Nat) (deVec : Bytes) : Exec Bytes :=
  if source + runLength ≤ output then copyWithin source (source + runLength) output deVec
  else copyForward source output runLength deVec

/-- Copies a back reference after its checks, returning the buffer and the end
of the written run. -/
def copyReference (deVec : Bytes) (source outputPosition extraLength : Nat) (hash : UInt8) :
    Exec (Bytes × Nat) := do
  if source = invalidOffset then
    deserializationErr s!"compression backreference hash {hash} has not been initialized"
  else
    let sourcePairEnd ← Exec.okOr (checkedAdd source 2)
      (.DeserializationErr "compression backreference source span overflowed")
    if sourcePairEnd > outputPosition then
      deserializationErr s!"compression backreference source {source} is not fully initialized at output offset {outputPosition}"
    else
      let runLength := extraLength + 2
      let outputEnd ← Exec.okOr (checkedAdd outputPosition runLength)
        (.DeserializationErr "compression backreference output span overflowed")
      if outputEnd > deVec.length then
        let available := deVec.length
        deserializationErr s!"compression backreference writes through offset {outputEnd}, beyond the {available}-byte output"
      else
        let sourceEnd ← Exec.okOr (checkedAdd source runLength)
          (.DeserializationErr "compression backreference source span overflowed")
        if sourceEnd > deVec.length then
          let available := deVec.length
          deserializationErr s!"compression backreference reads through offset {sourceEnd}, beyond the {available}-byte output"
        else
          let deVec ← copyRun source runLength outputPosition deVec
          .ok (deVec, outputEnd)

/-- `for position in hash_position..hash_end`, entering each pair. -/
def hashPairs (deVec : Bytes) : Nat → Nat → (UInt8 → Nat) → Exec (UInt8 → Nat)
  | 0, _, dictionary => .ok dictionary
  | count + 1, position, dictionary => do
    let next ← Exec.okOr (checkedAdd position 1)
      (.DeserializationErr "compression dictionary source position overflowed")
    match deVec[position]?, deVec[next]? with
    | some a, some b =>
      hashPairs deVec count (position + 1) (Function.update dictionary (a ^^^ b) position)
    | _, _ => deserializationErr "compression dictionary source pair exceeds the output"

/-- Reads a flag byte when the previous eight are used up. -/
def refillFlags (vec : Bytes) (d : Decompressor) : Exec Decompressor :=
  if d.mask = 0 then do
    let (flags, position) ← takeCompressedByte vec d.compressedPosition "compression flags"
    .ok { d with flags := flags, mask := 1, compressedPosition := position }
  else .ok d

/-- Copies a back reference and enters pairs: its first pair is entered, the
rest of its run is skipped. -/
def writeReference (d : Decompressor) (hash extra : UInt8) : Exec Decompressor := do
  let (deVec, outputEnd) ←
    copyReference d.deVec (d.dictionary hash) d.outputPosition extra.toNat hash
  let hashEnd ← Exec.okOr (checkedAdd d.outputPosition 1)
    (.DeserializationErr "compression dictionary position overflowed")
  let dictionary ← hashPairs deVec (hashEnd - d.hashPosition) d.hashPosition d.dictionary
  .ok { d with deVec := deVec, outputPosition := outputEnd, hashPosition := outputEnd,
               dictionary := dictionary }

/-- Writes a literal and enters the pairs that are complete by now. -/
def writeLiteral (d : Decompressor) (b : UInt8) : Exec Decompressor := do
  let deVec ← setIndex d.deVec d.outputPosition b
  let outputPosition := d.outputPosition + 1
  let dictionary ←
    hashPairs deVec (outputPosition - 1 - d.hashPosition) d.hashPosition d.dictionary
  .ok { d with deVec := deVec, outputPosition := outputPosition,
               hashPosition := outputPosition - 1, dictionary := dictionary }

def decompressReference (vec : Bytes) (d : Decompressor) : Exec Decompressor := do
  let (hash, position) ←
    takeCompressedByte vec d.compressedPosition "compression backreference hash"
  let (extra, position) ← takeCompressedByte vec position "compression backreference length"
  writeReference { d with compressedPosition := position } hash extra

def decompressLiteral (vec : Bytes) (d : Decompressor) : Exec Decompressor := do
  let (b, position) ← takeCompressedByte vec d.compressedPosition "compressed literal"
  writeLiteral { d with compressedPosition := position } b

def decompressToken (vec : Bytes) (d : Decompressor) : Exec Decompressor :=
  if d.flags &&& d.mask ≠ 0 then decompressReference vec d else decompressLiteral vec d

/-- One iteration of the `while` loop. -/
def decompressStep (vec : Bytes) (d : Decompressor) : Exec Decompressor := do
  let d ← refillFlags vec d
  let d ← decompressToken vec d
  .ok { d with mask := d.mask <<< 1 }

def decompressLoop (vec : Bytes) : Nat → Decompressor → Exec Decompressor
  | 0, d => if d.outputPosition < d.deVec.length then Exec.panicked else .ok d
  | fuel + 1, d =>
    if d.outputPosition < d.deVec.length then do
      decompressLoop vec fuel (← decompressStep vec d)
    else .ok d

/-- The decompressed total length in front of the compressed bytes. -/
def decompressedTotalLength (vec : Bytes) (startPos : Nat) : Exec Nat :=
  if startPos = 4 then do
    let bytes ← Exec.okOr (getRange vec 0 4)
      (.DeserializationErr "compressed data is missing its 4-byte length prefix")
    .ok (LittleEndian.decode bytes)
  else if startPos = 8 then do
    let bytes ← Exec.okOr (getRange vec 0 8)
      (.DeserializationErr "compressed data is missing its 8-byte length prefix")
    .ok (LittleEndian.decode bytes)
  else deserializationErr s!"unsupported compressed-data prefix length {startPos}"

/-- Returns the destination as the call leaves it. -/
def decompress (vec deVec : Bytes) (startPos : Nat) : Exec Bytes := do
  let total ← decompressedTotalLength vec startPos
  let expected ← Exec.okOr (checkedSub total 8)
    (.DeserializationErr "invalid decompressed message length in compressed-data prefix")
  if expected ≠ deVec.length then
    let available := deVec.length
    deserializationErr s!"decompressed body length mismatch: prefix requires {expected} bytes, destination has {available}"
  else
    let start : Decompressor :=
      { deVec := deVec, compressedPosition := startPos, outputPosition := 0, hashPosition := 0,
        flags := 0, mask := 0, dictionary := fun _ => invalidOffset }
    let d ← decompressLoop vec deVec.length start
    if d.compressedPosition ≠ vec.length then do
      let trailing ← subtract vec.length d.compressedPosition
      deserializationErr s!"compressed data has {trailing} trailing byte(s)"
    else .ok d.deVec

end Xqdb.Compression
