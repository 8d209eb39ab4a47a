import Xqdb.Native.Lossless

/-! What the native decoder and the lossless parser say of one body. The native decoder steps over
attributes, over the tags of a table and over the count of its columns, and it knows no count of
eight bytes: the two agree exactly where none of this matters. -/

namespace Xqdb.Native

open QValue (Wire fromBytes)

/-- A tree that the native decoder can have read when it returned `k`. -/
structure IsReading (tree : Native) (body : Bytes) (k : K) : Prop where
  wf : tree.WF
  bytes_eq : tree.encode = body
  shown : tree.Shows k

/-- The tree that the lossless parser has read. -/
structure IsParse (wire : Wire) (body : Bytes) (value : QValue) : Prop where
  wf : wire.WF
  levels : wire.depth ≤ 64
  bytes_eq : wire.encode = body
  metadata_eq : value.metadata = wire.metadata

theorem exists_reading {categories : CategoricalMapping} {encoding : SymbolEncoding} {body : Bytes} {k : K}
    (hsize : body.length ≤ isizeMax) (h : deserialize categories encoding body = .ok k) :
    ∃ tree, IsReading tree body k := by
  obtain ⟨tree, hwf, hbytes, hshown, -⟩ := deserialize_reads hsize h
  exact ⟨tree, hwf, hbytes, hshown⟩

theorem exists_parse {body : Bytes} {value : QValue} (h : fromBytes body = .ok value) :
    ∃ wire, IsParse wire body value := by
  obtain rfl := QValue.fromBytes_eq_ok.mp h
  obtain ⟨wire, hwf, hlevels, hbytes, hmetadata⟩ := (QValue.validate_eq_ok value.bounded).mp value.validated
  exact ⟨wire, hwf, hlevels, hbytes.symm, hmetadata⟩

theorem parse_ok {wire : Wire} (hwf : wire.WF) (hlevels : wire.depth ≤ 64) (hsize : wire.encode.length ≤ isizeMax) :
    ∃ value, fromBytes wire.encode = .ok value := by
  have hisize : isizeMax < usizeMax := by decide
  exact (QValue.fromBytes_encode hwf (by omega)).mpr hlevels

/-- A reading beside a parse with counts of four bytes. -/
theorem consistent_of_fourByteCounts {tree : Native} {wire : Wire} (hwf : tree.WF) (hw : wire.WF)
    (hfour : wire.FourByteCounts) (h : tree.encode = wire.encode) : tree.Consistent ∧ tree.toWire = wire := by
  have hbytes : tree.encode ++ [] = wire.encode ++ [] := by rw [h]
  obtain ⟨hconsistent, -⟩ := agrees hwf wire [] [] hw hfour hbytes
  have hof := isWireOf hwf hconsistent
  have hsame : tree.toWire.encode ++ [] = wire.encode ++ [] := by rw [hof.bytes_eq, h]
  exact ⟨hconsistent, (QValue.Wire.encode_append_inj hof.wf hw hsame).1⟩

theorem outline_eq_iff {tree : Native} {wire : Wire} (hwf : tree.WF) (hw : wire.WF)
    (h : tree.encode = wire.encode) : tree.outline 0 = wire.outline 0 ↔ wire.FourByteCounts := by
  constructor
  · exact tells hwf wire 0 hw h
  · intro hfour
    obtain ⟨hconsistent, hwire⟩ := consistent_of_fourByteCounts hwf hw hfour h
    rw [← hwire, (isWireOf hwf hconsistent).outline_eq]

/-! ## Structure -/

/-- Both decoders see the same types, counts and spans, at the top and in every child. -/
def StructuresAgree (body : Bytes) (k : K) (value : QValue) : Prop :=
  ∀ tree wire, IsReading tree body k → IsParse wire body value → tree.outline 0 = wire.outline 0

/-- No list in the body has its count in eight bytes. -/
def CountsInFourBytes (body : Bytes) : Prop :=
  ∀ wire : Wire, wire.WF → wire.encode = body → wire.FourByteCounts

/-- **Structure.** On a body that both accept, the native decoder and the lossless parser see the
same structure exactly when no list has its count in eight bytes. -/
theorem structures_agree_iff (categories : CategoricalMapping) (encoding : SymbolEncoding) (body : Bytes)
    (hsize : body.length ≤ isizeMax) (k : K) (value : QValue)
    (hnative : deserialize categories encoding body = .ok k) (hlossless : fromBytes body = .ok value) :
    ((∃ tree, IsReading tree body k) ∧ ∃ wire, IsParse wire body value) ∧
      (StructuresAgree body k value ↔ CountsInFourBytes body) := by
  obtain ⟨tree, htree⟩ := exists_reading hsize hnative
  obtain ⟨wire, hwire⟩ := exists_parse hlossless
  refine ⟨⟨⟨tree, htree⟩, wire, hwire⟩, fun hagree other hwf hbytes => ?_, fun hfour tree' wire' htree' hwire' => ?_⟩
  · have hsame : other.encode ++ [] = wire.encode ++ [] := by rw [hbytes, hwire.bytes_eq]
    obtain ⟨rfl, -⟩ := QValue.Wire.encode_append_inj hwf hwire.wf hsame
    exact (outline_eq_iff htree.wf hwf (htree.bytes_eq.trans hbytes.symm)).mp (hagree tree other htree hwire)
  · exact (outline_eq_iff htree'.wf hwire'.wf (htree'.bytes_eq.trans hwire'.bytes_eq.symm)).mpr
      (hfour wire' hwire'.wf hwire'.bytes_eq)

theorem structures_agree_bytes :
    ∃ k value, deserialize numberedTexts .Strict [4, 0, 1, 0, 0, 0, 65] = .ok k ∧
      fromBytes [4, 0, 1, 0, 0, 0, 65] = .ok value ∧ StructuresAgree [4, 0, 1, 0, 0, 0, 65] k value := by
  obtain ⟨k, hk⟩ := @exists_ok _ _ (deserialize numberedTexts .Strict [4, 0, 1, 0, 0, 0, 65]) (by decide +kernel)
  obtain ⟨value, hvalue⟩ := @exists_ok _ _ (fromBytes [4, 0, 1, 0, 0, 0, 65]) (by decide +kernel)
  refine ⟨k, value, hk, hvalue,
    (structures_agree_iff numberedTexts .Strict [4, 0, 1, 0, 0, 0, 65] (by decide) k value hk hvalue).2.mpr ?_⟩
  intro wire hwf hbytes
  have hlist : (Wire.fixedList 4 0 1 [65]).WF := by
    refine ⟨by decide, by decide, by decide, by decide, by decide, rfl, ?_⟩
    intro hbool
    cases hbool
  have hsame : wire.encode ++ [] = (Wire.fixedList 4 0 1 [65]).encode ++ [] := by
    rw [hbytes]
    rfl
  obtain ⟨rfl, -⟩ := QValue.Wire.encode_append_inj hwf hlist hsame
  exact (by decide : (0 : UInt8) &&& 0x80 = 0)

/-- A list of four bytes with its count in eight, and an int: the native decoder takes the upper
half of the count for the bytes and reads a long behind them. -/
def wideCount : Wire := .generalList 0 [.fixedList 4 0x80 4 [0xF9, 0, 0, 0], .atom 6 [0, 0, 0, 0]]

theorem wideCount_wf : wideCount.WF := by
  refine ⟨by decide, by decide, ⟨by decide, by decide, by decide, by decide, by decide, rfl, ?_⟩,
    ⟨by decide, by decide, by decide, by decide, rfl, ?_⟩, trivial⟩
  · intro hbool
    cases hbool
  · intro hbool
    cases hbool

theorem wideCount_structures :
    ∃ k value, deserialize numberedTexts .Strict wideCount.encode = .ok k ∧
      fromBytes wideCount.encode = .ok value ∧ (∃ tree, IsReading tree wideCount.encode k) ∧
      (∃ wire, IsParse wire wideCount.encode value) ∧ ¬ StructuresAgree wideCount.encode k value := by
  obtain ⟨k, hk⟩ := @exists_ok _ _ (deserialize numberedTexts .Strict wideCount.encode) (by decide +kernel)
  obtain ⟨value, hvalue⟩ := @exists_ok _ _ (fromBytes wideCount.encode) (by decide +kernel)
  obtain ⟨tree, htree⟩ := exists_reading (by decide) hk
  obtain ⟨wire, hwire⟩ := exists_parse hvalue
  refine ⟨k, value, hk, hvalue, ⟨tree, htree⟩, ⟨wire, hwire⟩, fun hagree => ?_⟩
  have hsame : wire.encode ++ [] = wideCount.encode ++ [] := by rw [hwire.bytes_eq]
  obtain ⟨rfl, -⟩ := QValue.Wire.encode_append_inj hwire.wf wideCount_wf hsame
  have hfour := (outline_eq_iff htree.wf hwire.wf htree.bytes_eq).mp (hagree tree wideCount htree hwire)
  exact absurd hfour.1 (by decide : ¬ (0x80 : UInt8) &&& 0x80 = 0)

/-! ## Acceptance -/

/-- The bytes that the native decoder steps over are what the format says, and the levels are
within the limit as the lossless parser counts them. -/
def WellTagged (body : Bytes) : Prop :=
  ∃ tree : Native, tree.WF ∧ tree.encode = body ∧ tree.Consistent ∧ tree.toWire.depth ≤ 64

theorem WellTagged.countsInFourBytes {body : Bytes} (h : WellTagged body) : CountsInFourBytes body := by
  obtain ⟨tree, hwf, rfl, hconsistent, -⟩ := h
  intro wire hw hbytes
  have hof := isWireOf hwf hconsistent
  have hsame : wire.encode ++ [] = tree.toWire.encode ++ [] := by rw [hof.bytes_eq, hbytes]
  obtain ⟨rfl, -⟩ := QValue.Wire.encode_append_inj hw hof.wf hsame
  exact (outline_eq_iff hwf hof.wf hof.bytes_eq.symm).mp (hof.outline_eq 0).symm

/-- **Acceptance.** A body that the native decoder accepts is a valid body if what it steps over is
as the format says; and where no count has eight bytes, only then. -/
theorem accepted_valid_iff (categories : CategoricalMapping) (encoding : SymbolEncoding) (body : Bytes)
    (hsize : body.length ≤ isizeMax) (k : K) (hnative : deserialize categories encoding body = .ok k) :
    (WellTagged body → CountsInFourBytes body ∧ ∃ value, fromBytes body = .ok value) ∧
      (CountsInFourBytes body → ((∃ value, fromBytes body = .ok value) ↔ WellTagged body)) := by
  have hvalid : WellTagged body → ∃ value, fromBytes body = .ok value := by
    rintro ⟨tree, hwf, rfl, hconsistent, hlevels⟩
    have hof := isWireOf hwf hconsistent
    rw [← hof.bytes_eq] at hsize ⊢
    exact parse_ok hof.wf hlevels hsize
  refine ⟨fun htagged => ⟨htagged.countsInFourBytes, hvalid htagged⟩, fun hcounts => ⟨?_, hvalid⟩⟩
  rintro ⟨value, hvalue⟩
  obtain ⟨tree, htree⟩ := exists_reading hsize hnative
  obtain ⟨wire, hwire⟩ := exists_parse hvalue
  obtain ⟨hconsistent, rfl⟩ := consistent_of_fourByteCounts htree.wf hwire.wf
    (hcounts wire hwire.wf hwire.bytes_eq) (htree.bytes_eq.trans hwire.bytes_eq.symm)
  exact ⟨tree, htree.wf, htree.bytes_eq, hconsistent, hwire.levels⟩

theorem accepted_valid_bytes : ∃ value, fromBytes [4, 0, 1, 0, 0, 0, 65] = .ok value := by
  obtain ⟨k, hk⟩ := @exists_ok _ _ (deserialize numberedTexts .Strict [4, 0, 1, 0, 0, 0, 65]) (by decide +kernel)
  refine ((accepted_valid_iff numberedTexts .Strict [4, 0, 1, 0, 0, 0, 65] (by decide) k hk).1 ?_).2
  refine ⟨.uniform (.fixed 4 0 1 [65]), ⟨⟨by decide, by decide, by decide, by decide, by decide, rfl⟩, ?_⟩, rfl,
    ⟨by decide, trivial⟩, by decide⟩
  intro hbool
  cases hbool

/-- A table under wrong tags, with a wrong count of columns, is decoded. -/
theorem untagged_table_accepted :
    (∃ k, deserialize numberedTexts .Strict
      [98, 9, 7, 7, 0, 1, 0, 0, 0, 97, 0, 7, 7, 9, 0, 0, 0, 4, 0, 1, 0, 0, 0, 65] = .ok k) ∧
    ¬ ∃ value, fromBytes [98, 9, 7, 7, 0, 1, 0, 0, 0, 97, 0, 7, 7, 9, 0, 0, 0, 4, 0, 1, 0, 0, 0, 65] =
      .ok value := by
  refine ⟨@exists_ok _ _ (deserialize numberedTexts .Strict
    [98, 9, 7, 7, 0, 1, 0, 0, 0, 97, 0, 7, 7, 9, 0, 0, 0, 4, 0, 1, 0, 0, 0, 65]) (by decide +kernel), ?_⟩
  rintro ⟨value, hvalue⟩
  have hrefused : (fromBytes [98, 9, 7, 7, 0, 1, 0, 0, 0, 97, 0, 7, 7, 9, 0, 0, 0, 4, 0, 1, 0, 0, 0, 65]).isOk =
      false := by decide +kernel
  rw [hvalue] at hrefused
  cases hrefused

end Xqdb.Native
