import Mathlib.Data.List.Forall2
import Xqdb.QValue.Compose

/-! Values that are put together: `QValue::atom` makes the leaves that `QValue::list` and
`QValue::dictionary` are applied to, over any number of levels. What the constructors accept and
what they make of it is told by the tree of the calls. -/

namespace Xqdb.QValue

/-! ## Atoms -/

/-- The checks of `QValue::atom` on the payload of a kind that there is. -/
def checkAtomPayload (kind : UInt8) (payload : Bytes) : Exec Unit :=
  if kind = 11 then
    if payload.getLast? ≠ some 0 ∨ 0 ∈ payload.take (payload.length - 1) then
      Exec.err (.NotAbleToSerializeErr "q symbol atom payload must contain exactly one terminating NUL")
    else .ok ()
  else if payload.length ≠ typeSize kind then
    Exec.err (.NotAbleToSerializeErr
      s!"q atom kind {kind} requires {typeSize kind} payload byte(s), got {payload.length}")
  else if kind = 1 then do
    let first ← index payload 0
    if 1 < first then Exec.err (.NotAbleToSerializeErr s!"q boolean atom must be 0 or 1, got {first}")
    else .ok ()
  else .ok ()

def atom (kind : UInt8) (payload : Bytes) : Exec QValue :=
  if ¬ (1 ≤ kind ∧ kind ≤ 19) ∨ kind = 3 then
    Exec.err (.NotAbleToSerializeErr
      s!"unsupported q atom kind {kind}; expected 1..=19 excluding reserved kind 3")
  else do
    checkAtomPayload kind payload
    let length ← Exec.okOr (checkedAdd payload.length 1) .OverLengthErr
    reserveBody length "q atom"
    fromBytes ((0 - kind) :: payload)

/-- The tree of an atom: a symbol is its text. -/
def atomTree (kind : UInt8) (payload : Bytes) : Wire :=
  if kind = 11 ∧ payload.getLast? = some 0 then .symbol payload.dropLast else .atom kind payload

theorem encode_atomTree (kind : UInt8) (payload : Bytes) : (atomTree kind payload).encode = (0 - kind) :: payload := by
  unfold atomTree
  split
  · next h =>
    obtain ⟨rfl, hlast⟩ := h
    obtain ⟨text, rfl⟩ := List.getLast?_eq_some_iff.mp hlast
    rw [List.dropLast_concat, Wire.encode]
    rfl
  · rw [Wire.encode]

theorem depth_atomTree (kind : UInt8) (payload : Bytes) : (atomTree kind payload).depth = 0 := by
  unfold atomTree
  split
  · rfl
  · rfl

theorem checkSymbolPayload_eq_ok (payload : Bytes) :
    checkAtomPayload 11 payload = .ok () ↔ (atomTree 11 payload).WF := by
  by_cases hlast : payload.getLast? = some 0
  · obtain ⟨text, rfl⟩ := List.getLast?_eq_some_iff.mp hlast
    simp [checkAtomPayload, atomTree, Wire.WF]
  · simp [checkAtomPayload, atomTree, Wire.WF, hlast]

theorem checkAtomPayload_eq_ok {kind : UInt8} {payload : Bytes} (hlow : 1 ≤ kind) (hhigh : kind ≤ 19)
    (hreserved : kind ≠ 3) :
    checkAtomPayload kind payload = .ok () ↔ (atomTree kind payload).WF := by
  by_cases hsymbol : kind = 11
  · rw [hsymbol]
    exact checkSymbolPayload_eq_ok payload
  · have htree : atomTree kind payload = .atom kind payload := if_neg fun h => hsymbol h.1
    rw [htree, checkAtomPayload, if_neg hsymbol, Wire.WF]
    by_cases hlength : payload.length = typeSize kind
    · rw [if_neg (by simpa using hlength)]
      by_cases hboolean : kind = 1
      · have hone : payload.length = 1 := by
          rw [hlength, hboolean]
          rfl
        obtain ⟨b, rfl⟩ := List.length_eq_one_iff.mp hone
        rw [if_pos hboolean, index_of_lt (by simp), Exec.ok_bind, List.getElem_cons_zero]
        simp only [hlength, hboolean, ne_eq, true_and, forall_const,
          List.mem_singleton, forall_eq]
        split
        · next hlarge => simpa using hlarge
        · next hsmall => simpa using hsmall
      · simp [hboolean, hlow, hhigh, hreserved, hsymbol, hlength]
    · simp [hlength]

theorem atom_eq_ok {kind : UInt8} {payload : Bytes} {value : QValue} :
    atom kind payload = .ok value ↔ (atomTree kind payload).WF ∧ (atomTree kind payload).encode.length ≤ isizeMax ∧
      value.bytes = (atomTree kind payload).encode := by
  have hisize : isizeMax < usizeMax := by decide
  rw [encode_atomTree, List.length_cons]
  unfold atom
  split
  · next hkind =>
    simp only [Exec.err_ne_ok, false_iff]
    rintro ⟨hwf, -⟩
    unfold atomTree at hwf
    split at hwf
    · next h =>
      rw [h.1] at hkind
      revert hkind
      decide
    · rcases hkind with hrange | hreserved
      · exact hrange ⟨hwf.1, hwf.2.1⟩
      · exact hwf.2.2.1 hreserved
  · next hkind =>
    obtain ⟨hrange, hreserved⟩ := not_or.mp hkind
    obtain ⟨hlow, hhigh⟩ := not_not.mp hrange
    simp only [Exec.bind_eq_ok, Exec.okOr_eq_ok, checkedAdd_eq_some, fromBytes_eq_ok]
    constructor
    · rintro ⟨⟨⟩, hcheck, length, ⟨rfl, -⟩, ⟨⟩, hreserve, hbytes⟩
      exact ⟨(checkAtomPayload_eq_ok hlow hhigh hreserved).mp hcheck, reserveBody_eq_ok.mp hreserve, hbytes⟩
    · rintro ⟨hwf, hfits, hbytes⟩
      exact ⟨(), (checkAtomPayload_eq_ok hlow hhigh hreserved).mpr hwf, _, ⟨rfl, by omega⟩, (),
        reserveBody_eq_ok.mpr hfits, hbytes⟩

/-! ## Programs of constructors -/

/-- A slice, which no allocation is too small for. -/
abbrev Slice : Type := { body : Bytes // body.length ≤ isizeMax }

/-- Calls of the constructors, each applied to what others have made. -/
inductive Build where
  | bytes (body : Slice)
  | atom (kind : UInt8) (payload : Bytes)
  | list (items : List Build)
  | dictionary (keys values : Build)

namespace Build

theorem induct {motive : Build → Prop} (bytes : ∀ body, motive (.bytes body))
    (atom : ∀ kind payload, motive (.atom kind payload))
    (list : ∀ items, (∀ item ∈ items, motive item) → motive (.list items))
    (dictionary : ∀ keys values, motive keys → motive values → motive (.dictionary keys values)) :
    ∀ build, motive build := by
  intro build
  refine @Build.rec motive (fun items => ∀ item ∈ items, motive item) bytes atom list dictionary ?_ ?_ build
  · simp
  · intro head tail hhead htail
    exact List.forall_mem_cons.mpr ⟨hhead, htail⟩

mutual

def run : Build → Exec QValue
  | .bytes body => fromBytes body.val
  | .atom kind payload => QValue.atom kind payload
  | .list items => do
    let values ← runAll items
    QValue.list values
  | .dictionary keys values => do
    let keys ← run keys
    let values ← run values
    QValue.dictionary keys values

def runAll : List Build → Exec (List QValue)
  | [] => .ok []
  | item :: rest => do
    let value ← run item
    let values ← runAll rest
    .ok (value :: values)

end

mutual

/-- The tree of the calls; bytes that are given stand for the tree that they encode. -/
def Stands : Build → Wire → Prop
  | .bytes body, wire => body.val = wire.encode
  | .atom kind payload, wire => wire = atomTree kind payload
  | .list items, wire => ∃ children, StandAll items children ∧ wire = .generalList 0 children
  | .dictionary keys values, wire => ∃ keyTree valueTree, Stands keys keyTree ∧ Stands values valueTree ∧
      wire = .dictionary 99 keyTree valueTree

def StandAll : List Build → List Wire → Prop
  | [], wires => wires = []
  | item :: rest, wires => ∃ wire others, Stands item wire ∧ StandAll rest others ∧ wires = wire :: others

end

end Build

/-- A tree that a value can be. -/
structure Wire.Fits (wire : Wire) : Prop where
  wf : wire.WF
  depth : wire.depth ≤ maxValueDepth
  size : wire.encode.length ≤ isizeMax

theorem exists_value {wire : Wire} (h : wire.Fits) : ∃ value : QValue, value.bytes = wire.encode := by
  have hisize : isizeMax < usizeMax := by decide
  have hsize := h.size
  obtain ⟨value, hvalue⟩ := fromBytes_isOk.mpr ⟨⟨_, validate_encode h.wf h.depth (by omega)⟩, by omega⟩
  exact ⟨value, fromBytes_eq_ok.mp hvalue⟩

/-- What is known of a value is known of its tree. -/
theorem metadata_of_bytes {value : QValue} {wire : Wire} (hwf : wire.WF) (h : value.bytes = wire.encode) :
    value.metadata = wire.metadata := by
  obtain ⟨wire', hwf', -, hbytes, hmetadata⟩ := value.exists_tree
  have happend : wire'.encode ++ [] = wire.encode ++ [] := by rw [List.append_nil, List.append_nil, ← hbytes, h]
  obtain ⟨rfl, -⟩ := Wire.encode_append_inj hwf' hwf happend
  exact hmetadata

theorem maxDepth_of_bytes {value : QValue} {wire : Wire} (hwf : wire.WF) (h : value.bytes = wire.encode) :
    value.maxDepth = wire.depth := by
  rw [maxDepth, metadata_of_bytes hwf h, Wire.metadata]

theorem sidesFit_iff {keys values : QValue} {keyTree valueTree : Wire} (hkeys : keyTree.WF) (hvalues : valueTree.WF)
    (hkeyBytes : keys.bytes = keyTree.encode) (hvalueBytes : values.bytes = valueTree.encode) :
    SidesFit keys values ↔ Wire.SidesOk keyTree.parsed valueTree.parsed := by
  simp only [SidesFit, Wire.SidesOk, len, typeCode, metadata_of_bytes hkeys hkeyBytes, metadata_of_bytes hvalues hvalueBytes,
    Wire.metadata, (typeCode_kinds hkeys).1, (typeCode_kinds hvalues).1, (typeCode_kinds hkeys).2, (typeCode_kinds hvalues).2]

/-- Values and the trees that they are. -/
def Holds (values : List QValue) (wires : List Wire) : Prop :=
  List.Forall₂ (fun value wire => wire.Fits ∧ value.bytes = wire.encode) values wires

theorem Holds.encodeAll {values : List QValue} {wires : List Wire} (h : Holds values wires) :
    Wire.encodeAll wires = values.flatMap bytes := by
  induction h with
  | nil => rfl
  | cons hvalue _ ih => rw [Wire.encodeAll, List.flatMap_cons, ih, hvalue.2]

theorem Holds.allWF {values : List QValue} {wires : List Wire} (h : Holds values wires) : Wire.AllWF wires := by
  induction h with
  | nil => trivial
  | cons hvalue _ ih => exact ⟨hvalue.1.wf, ih⟩

theorem Holds.levels {values : List QValue} {wires : List Wire} (h : Holds values wires) :
    Wire.levels wires = QValue.levels values := by
  induction h with
  | nil => rfl
  | cons hvalue _ ih =>
    rw [Wire.levels, ih, QValue.levels, QValue.levels, List.map_cons, List.foldr_cons,
      maxDepth_of_bytes hvalue.1.wf hvalue.2, Nat.add_comm]

theorem Holds.listBytes {values : List QValue} {wires : List Wire} (h : Holds values wires) :
    QValue.listBytes values = (Wire.generalList 0 wires).encode := by
  simp [QValue.listBytes, Wire.encode, h.encodeAll, List.Forall₂.length_eq h]

/-- The list of values is the list of their trees. -/
theorem list_holds {values : List QValue} {wires : List Wire} (h : Holds values wires) {value : QValue} :
    list values = .ok value ↔
      (Wire.generalList 0 wires).Fits ∧ value.bytes = (Wire.generalList 0 wires).encode := by
  have hi32 : i32Max = 2 ^ 31 - 1 := rfl
  have hlength := List.Forall₂.length_eq h
  rw [list_eq_ok, ← levels_le_iff, ← h.levels, h.listBytes]
  constructor
  · rintro ⟨hcount, hdepth, hsize, hbytes⟩
    exact ⟨⟨⟨by decide, by omega, h.allWF⟩, hdepth, hsize⟩, hbytes⟩
  · rintro ⟨⟨⟨-, hcount, -⟩, hdepth, hsize⟩, hbytes⟩
    exact ⟨by omega, hdepth, hsize, hbytes⟩

theorem dictionary_holds {keys values : QValue} {keyTree valueTree : Wire} (hkeys : keyTree.WF) (hvalues : valueTree.WF)
    (hkeyBytes : keys.bytes = keyTree.encode) (hvalueBytes : values.bytes = valueTree.encode) {value : QValue} :
    dictionary keys values = .ok value ↔
      (Wire.dictionary 99 keyTree valueTree).Fits ∧ value.bytes = (Wire.dictionary 99 keyTree valueTree).encode := by
  have hmax : maxValueDepth = 64 := rfl
  have hencode : dictionaryBytes keys values = (Wire.dictionary 99 keyTree valueTree).encode := by
    rw [dictionaryBytes, Wire.encode, hkeyBytes, hvalueBytes]
  rw [dictionary_eq_ok, sidesFit_iff hkeys hvalues hkeyBytes hvalueBytes, maxDepth_of_bytes hkeys hkeyBytes,
    maxDepth_of_bytes hvalues hvalueBytes, hencode]
  constructor
  · rintro ⟨hsides, hkeyDepth, hvalueDepth, hsize, hbytes⟩
    refine ⟨⟨⟨.inl rfl, hkeys, hvalues, hsides⟩, ?_, hsize⟩, hbytes⟩
    rw [Wire.depth]
    omega
  · rintro ⟨⟨⟨-, -, -, hsides⟩, hdepth, hsize⟩, hbytes⟩
    rw [Wire.depth] at hdepth
    exact ⟨hsides, by omega, by omega, hsize, hbytes⟩

/-! ## What a program makes -/

theorem Wire.length_le_encodeAll_of_mem {wires : List Wire} {wire : Wire} (h : wire ∈ wires) :
    wire.encode.length ≤ (Wire.encodeAll wires).length := by
  induction wires with
  | nil => cases h
  | cons first rest ih =>
    rw [Wire.encodeAll, List.length_append]
    cases h with
    | head => omega
    | tail _ h =>
      have := ih h
      omega

theorem Wire.Fits.child {wires : List Wire} {wire : Wire} (h : (Wire.generalList 0 wires).Fits) (hmem : wire ∈ wires) :
    wire.Fits := by
  have hsize := h.size
  have hdepth := h.depth
  have hle := Wire.length_le_encodeAll_of_mem hmem
  have hlevels := Wire.levels_le hmem
  simp only [Wire.encode, List.length_cons, List.length_append] at hsize
  rw [Wire.depth] at hdepth
  exact ⟨Wire.allWF_iff.mp h.wf.2.2 wire hmem, by omega, by omega⟩

theorem Wire.Fits.sides {keys values : Wire} (h : (Wire.dictionary 99 keys values).Fits) : keys.Fits ∧ values.Fits := by
  have hsize := h.size
  have hdepth := h.depth
  obtain ⟨-, hkeys, hvalues, -⟩ := h.wf
  simp only [Wire.encode, List.length_cons, List.length_append] at hsize
  rw [Wire.depth] at hdepth
  exact ⟨⟨hkeys, by omega, by omega⟩, ⟨hvalues, by omega, by omega⟩⟩

theorem exists_values {wires : List Wire} (h : ∀ wire ∈ wires, wire.Fits) : ∃ values, Holds values wires := by
  induction wires with
  | nil => exact ⟨[], .nil⟩
  | cons wire rest ih =>
    obtain ⟨hwire, hrest⟩ := List.forall_mem_cons.mp h
    obtain ⟨value, hvalue⟩ := exists_value hwire
    obtain ⟨values, hvalues⟩ := ih hrest
    exact ⟨value :: values, .cons ⟨hwire, hvalue⟩ hvalues⟩

namespace Build

theorem runAll_eq_ok {items : List Build} {values : List QValue}
    (ih : ∀ item ∈ items, ∀ value, item.run = .ok value ↔
      ∃ wire, item.Stands wire ∧ wire.Fits ∧ value.bytes = wire.encode) :
    runAll items = .ok values ↔ ∃ wires, StandAll items wires ∧ Holds values wires := by
  induction items generalizing values with
  | nil =>
    rw [runAll]
    constructor
    · intro h
      obtain rfl := Except.ok.inj h
      exact ⟨[], rfl, .nil⟩
    · rintro ⟨wires, rfl, hholds⟩
      cases hholds
      rfl
  | cons item rest ihrest =>
    obtain ⟨hitem, hrest⟩ := List.forall_mem_cons.mp ih
    rw [runAll]
    simp only [Exec.bind_eq_ok, hitem, ihrest hrest, Except.ok.injEq]
    constructor
    · rintro ⟨value, ⟨wire, hstands, hfits, hbytes⟩, others, ⟨wires, hall, hholds⟩, rfl⟩
      exact ⟨wire :: wires, ⟨wire, wires, hstands, hall, rfl⟩, .cons ⟨hfits, hbytes⟩ hholds⟩
    · rintro ⟨_, ⟨wire, wires, hstands, hall, rfl⟩, hholds⟩
      cases hholds with
      | cons hvalue hothers =>
        exact ⟨_, ⟨wire, hstands, hvalue.1, hvalue.2⟩, _, ⟨wires, hall, hothers⟩, rfl⟩

theorem run_eq_ok (build : Build) (value : QValue) :
    build.run = .ok value ↔ ∃ wire, build.Stands wire ∧ wire.Fits ∧ value.bytes = wire.encode := by
  induction build using Build.induct generalizing value with
  | bytes body =>
    rw [run, fromBytes_eq_ok]
    constructor
    · intro hbytes
      obtain ⟨wire, hwf, hdepth, hencode, -⟩ := value.exists_tree
      have hbody : body.val = wire.encode := hbytes.symm.trans hencode
      exact ⟨wire, hbody, ⟨hwf, hdepth, hbody ▸ body.property⟩, hencode⟩
    · rintro ⟨wire, hbody, -, hencode⟩
      exact hencode.trans hbody.symm
  | atom kind payload =>
    have hdepth : (atomTree kind payload).depth ≤ maxValueDepth := by
      rw [depth_atomTree]
      exact Nat.zero_le _
    rw [run, atom_eq_ok]
    constructor
    · rintro ⟨hwf, hsize, hbytes⟩
      exact ⟨_, rfl, ⟨hwf, hdepth, hsize⟩, hbytes⟩
    · rintro ⟨_, rfl, hfits, hbytes⟩
      exact ⟨hfits.wf, hfits.size, hbytes⟩
  | list items ih =>
    rw [run]
    simp only [Exec.bind_eq_ok, runAll_eq_ok ih]
    constructor
    · rintro ⟨values, ⟨wires, hall, hholds⟩, hlist⟩
      exact ⟨_, ⟨wires, hall, rfl⟩, (list_holds hholds).mp hlist⟩
    · rintro ⟨_, ⟨wires, hall, rfl⟩, hfits, hbytes⟩
      obtain ⟨values, hholds⟩ := exists_values fun wire hmem => hfits.child hmem
      exact ⟨values, ⟨wires, hall, hholds⟩, (list_holds hholds).mpr ⟨hfits, hbytes⟩⟩
  | dictionary keys values ihk ihv =>
    rw [run]
    simp only [Exec.bind_eq_ok, ihk, ihv]
    constructor
    · rintro ⟨keyValue, ⟨keyTree, hkeys, hkeyFits, hkeyBytes⟩, valueValue, ⟨valueTree, hvalues, hvalueFits, hvalueBytes⟩,
        hdictionary⟩
      exact ⟨_, ⟨keyTree, valueTree, hkeys, hvalues, rfl⟩,
        (dictionary_holds hkeyFits.wf hvalueFits.wf hkeyBytes hvalueBytes).mp hdictionary⟩
    · rintro ⟨_, ⟨keyTree, valueTree, hkeys, hvalues, rfl⟩, hfits, hbytes⟩
      obtain ⟨hkeyFits, hvalueFits⟩ := hfits.sides
      obtain ⟨keyValue, hkeyBytes⟩ := exists_value hkeyFits
      obtain ⟨valueValue, hvalueBytes⟩ := exists_value hvalueFits
      exact ⟨keyValue, ⟨keyTree, hkeys, hkeyFits, hkeyBytes⟩, valueValue, ⟨valueTree, hvalues, hvalueFits, hvalueBytes⟩,
        (dictionary_holds hkeyFits.wf hvalueFits.wf hkeyBytes hvalueBytes).mpr ⟨hfits, hbytes⟩⟩

theorem encodeAll_unique {items : List Build}
    (ih : ∀ item ∈ items, ∀ wire wire', item.Stands wire → item.Stands wire' → wire.encode = wire'.encode)
    {wires wires' : List Wire} (h : StandAll items wires) (h' : StandAll items wires') :
    wires.length = wires'.length ∧ Wire.encodeAll wires = Wire.encodeAll wires' := by
  induction items generalizing wires wires' with
  | nil =>
    obtain rfl := h
    obtain rfl := h'
    exact ⟨rfl, rfl⟩
  | cons item rest ihrest =>
    obtain ⟨hitem, hrest⟩ := List.forall_mem_cons.mp ih
    obtain ⟨wire, others, hstands, hall, rfl⟩ := h
    obtain ⟨wire', others', hstands', hall', rfl⟩ := h'
    obtain ⟨hlength, hencode⟩ := ihrest hrest hall hall'
    exact ⟨by simp [hlength], by rw [Wire.encodeAll, Wire.encodeAll, hitem _ _ hstands hstands', hencode]⟩

/-- A program has one encoding. -/
theorem encode_unique (build : Build) (wire wire' : Wire) (h : build.Stands wire) (h' : build.Stands wire') :
    wire.encode = wire'.encode := by
  induction build using Build.induct generalizing wire wire' with
  | bytes body => exact Eq.trans (Eq.symm h) h'
  | atom kind payload => rw [show wire = wire' from Eq.trans h (Eq.symm h')]
  | list items ih =>
    obtain ⟨children, hall, rfl⟩ := h
    obtain ⟨children', hall', rfl⟩ := h'
    obtain ⟨hlength, hencode⟩ := encodeAll_unique ih hall hall'
    rw [Wire.encode, Wire.encode, hlength, hencode]
  | dictionary keys values ihk ihv =>
    obtain ⟨keyTree, valueTree, hkeys, hvalues, rfl⟩ := h
    obtain ⟨keyTree', valueTree', hkeys', hvalues', rfl⟩ := h'
    rw [Wire.encode, Wire.encode, ihk _ _ hkeys hkeys', ihv _ _ hvalues hvalues']

end Build

/-- **The constructors make exactly the values that their trees are.** A program of calls succeeds if
its tree is one of a value, atoms and counts and depth and size included, and then its value is the
encoding of that tree; two programs make one value exactly if they have one tree. -/
theorem constructions_exact (build : Build) :
    (∀ value, build.run = .ok value ↔ ∃ wire, build.Stands wire ∧ wire.Fits ∧ value.bytes = wire.encode) ∧
    ((∃ value, build.run = .ok value) ↔ ∃ wire, build.Stands wire ∧ wire.Fits) ∧
    ∀ (other : Build) value value', build.run = .ok value → other.run = .ok value' →
      (value = value' ↔ ∃ wire, build.Stands wire ∧ other.Stands wire) := by
  refine ⟨build.run_eq_ok, ?_, ?_⟩
  · constructor
    · rintro ⟨value, hvalue⟩
      obtain ⟨wire, hstands, hfits, -⟩ := (build.run_eq_ok value).mp hvalue
      exact ⟨wire, hstands, hfits⟩
    · rintro ⟨wire, hstands, hfits⟩
      obtain ⟨value, hbytes⟩ := exists_value hfits
      exact ⟨value, (build.run_eq_ok value).mpr ⟨wire, hstands, hfits, hbytes⟩⟩
  · intro other value value' hvalue hvalue'
    obtain ⟨wire, hstands, hfits, hbytes⟩ := (build.run_eq_ok value).mp hvalue
    obtain ⟨wire', hstands', hfits', hbytes'⟩ := (other.run_eq_ok value').mp hvalue'
    constructor
    · rintro rfl
      have happend : wire.encode ++ [] = wire'.encode ++ [] := by rw [← hbytes, ← hbytes']
      obtain ⟨rfl, -⟩ := Wire.encode_append_inj hfits.wf hfits'.wf happend
      exact ⟨wire, hstands, hstands'⟩
    · rintro ⟨tree, htree, htree'⟩
      apply ext_bytes
      rw [hbytes, hbytes', build.encode_unique _ _ hstands htree, other.encode_unique _ _ hstands' htree']

/-- A symbol and a boolean under two keys. -/
example : ((Build.dictionary (.list [.atom 4 [1], .atom 4 [2]]) (.list [.atom 11 [0x71, 0], .atom 1 [1]])).run.map
    QValue.bytes) = .ok [99, 0, 0, 2, 0, 0, 0, 252, 1, 252, 2, 0, 0, 2, 0, 0, 0, 245, 0x71, 0, 255, 1] := by decide +kernel

end Xqdb.QValue
