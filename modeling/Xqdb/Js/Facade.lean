import Xqdb.Js.Conversion

/-! What comes back when a value that `normalizeOutput` made goes through `normalizeInput`: the same
tree, but for the order of the entries of its dictionaries. -/

namespace Xqdb
namespace Js

/-- The values with tags that a JavaScript value tells apart. -/
inductive Tree where
  | null
  | boolean (value : Bool)
  | f64 (bits : UInt64)
  | i64 (value : Int)
  | symbol (value : JsString)
  | bytes (value : Bytes)
  | operator (name : JsString)
  | lambda (source context : JsString)
  | timestamp (nanoseconds : Int)
  | time (nanoseconds : Int)
  | timespan (nanoseconds : Int)
  | list (items : List Tree)
  | dictionary (entries : List (JsString × Tree))

namespace Tree

def IsLeaf : Tree → Prop
  | .list _ => False
  | .dictionary _ => False
  | _ => True

/-- Induction over a tree, the items of its lists and the values of its dictionaries. -/
theorem induct {motive : Tree → Prop} (leaf : ∀ tree, tree.IsLeaf → motive tree)
    (list : ∀ items, (∀ item ∈ items, motive item) → motive (.list items))
    (dictionary : ∀ entries, (∀ entry ∈ entries, motive entry.2) → motive (.dictionary entries)) :
    ∀ tree, motive tree := by
  intro tree
  refine @Tree.rec motive (fun items => ∀ item ∈ items, motive item)
    (fun entries => ∀ entry ∈ entries, motive entry.2) (fun entry => motive entry.2)
    ?_ ?_ ?_ ?_ ?_ ?_ ?_ ?_ ?_ ?_ ?_ list dictionary ?_ ?_ ?_ ?_ ?_ tree
  all_goals first
    | exact fun _ => leaf _ trivial
    | exact fun _ _ => leaf _ trivial
    | exact leaf _ trivial
    | skip
  · simp
  · intro head tail hhead htail item hmem
    cases hmem with
    | head => exact hhead
    | tail _ hmem => exact htail item hmem
  · simp
  · intro head tail hhead htail entry hmem
    cases hmem with
    | head => exact hhead
    | tail _ hmem => exact htail entry hmem
  · intro key value hvalue
    exact hvalue

mutual

/-- The object that carries the tree. -/
def native : Tree → NativeObject
  | .null => { tag := "null" }
  | .boolean value => { tag := "boolean", boolValue := some value }
  | .f64 bits => { tag := "f64", numberValue := some bits }
  | .i64 value => { tag := "i64", bigintValue := some value }
  | .symbol value => { tag := "symbol", stringValue := some value }
  | .bytes value => { tag := "bytes", bytesValue := some value }
  | .operator name => { tag := "operator", stringValue := some name }
  | .lambda source context => { tag := "lambda", stringValue := some source, context := some context }
  | .timestamp nanoseconds => { tag := "timestamp", bigintValue := some nanoseconds }
  | .time nanoseconds => { tag := "time", bigintValue := some nanoseconds }
  | .timespan nanoseconds => { tag := "timespan", bigintValue := some nanoseconds }
  | .list items => { tag := "list", items := some (natives items) }
  | .dictionary entries => { tag := "dictionary", entries := some (nativeEntries entries) }

def natives : List Tree → List NativeObject
  | [] => []
  | item :: rest => item.native :: natives rest

def nativeEntries : List (JsString × Tree) → List (JsString × NativeObject)
  | [] => []
  | (key, value) :: rest => (key, value.native) :: nativeEntries rest

end

mutual

/-- The JavaScript value of the tree. -/
def js (A : Arrow) : Tree → JsValue A
  | .null => .null
  | .boolean value => .boolean value
  | .f64 bits => .number bits
  | .i64 value => .bigint value
  | .symbol value => .string value
  | .bytes value => .bytes value
  | .operator name => .operator name
  | .lambda source context => .lambda source context
  | .timestamp nanoseconds => .timestamp nanoseconds
  | .time nanoseconds => .time nanoseconds
  | .timespan nanoseconds => .timespan nanoseconds
  | .list items => .array (jsItems A items)
  | .dictionary entries => .object (PropertyOrder.ordered arrayIndex (jsEntries A entries))

def jsItems (A : Arrow) : List Tree → List (JsValue A)
  | [] => []
  | item :: rest => item.js A :: jsItems A rest

def jsEntries (A : Arrow) : List (JsString × Tree) → List (JsString × JsValue A)
  | [] => []
  | (key, value) :: rest => (key, value.js A) :: jsEntries A rest

end

mutual

/-- The levels below the tree's root. -/
def height : Tree → Nat
  | .list items => heights items
  | .dictionary entries => entryHeights entries
  | _ => 0

def heights : List Tree → Nat
  | [] => 0
  | item :: rest => max (item.height + 1) (heights rest)

def entryHeights : List (JsString × Tree) → Nat
  | [] => 0
  | (_, value) :: rest => max (value.height + 1) (entryHeights rest)

end

mutual

/-- The tree with the entries of its dictionaries, at every level, in JavaScript's order. -/
def ordered : Tree → Tree
  | .list items => .list (allOrdered items)
  | .dictionary entries => .dictionary (PropertyOrder.ordered arrayIndex (entriesOrdered entries))
  | tree => tree

def allOrdered : List Tree → List Tree
  | [] => []
  | item :: rest => item.ordered :: allOrdered rest

def entriesOrdered : List (JsString × Tree) → List (JsString × Tree)
  | [] => []
  | (key, value) :: rest => (key, value.ordered) :: entriesOrdered rest

end

mutual

/-- A property of the tree and of all trees in it. -/
def Everywhere (p : Tree → Prop) : Tree → Prop
  | .list items => p (.list items) ∧ EveryItem p items
  | .dictionary entries => p (.dictionary entries) ∧ EveryValue p entries
  | tree => p tree

def EveryItem (p : Tree → Prop) : List Tree → Prop
  | [] => True
  | item :: rest => item.Everywhere p ∧ EveryItem p rest

def EveryValue (p : Tree → Prop) : List (JsString × Tree) → Prop
  | [] => True
  | (_, value) :: rest => value.Everywhere p ∧ EveryValue p rest

end

/-- What the facade checks of a value and what a q dictionary of symbols has. -/
def Supported : Tree → Prop
  | .symbol value => value.includesNul = false
  | .operator name => name ∈ supportedQOperatorNames
  | .lambda source context => ∃ parts, validateQLambdaParts source context = .ok parts
  | .time nanoseconds => 0 ≤ nanoseconds ∧ nanoseconds < nanosecondsPerDay ∧ nanosecondsPerMillisecond ∣ nanoseconds
  | .dictionary entries =>
    (entries.map Prod.fst).Nodup ∧ ∀ entry ∈ entries, entry.1.includesNul = false
  | _ => True

/-- The entries of a dictionary stand in JavaScript's order of their keys. -/
def InPropertyOrder : Tree → Prop
  | .dictionary entries => entries.Pairwise (PropertyOrder.Before arrayIndex)
  | _ => True

theorem jsEntries_eq (A : Arrow) (entries : List (JsString × Tree)) :
    jsEntries A entries = entries.map fun entry => (entry.1, entry.2.js A) := by
  induction entries with
  | nil => rfl
  | cons entry rest ih => rw [jsEntries, ih, List.map_cons]

theorem allOrdered_eq (items : List Tree) : allOrdered items = items.map ordered := by
  induction items with
  | nil => rfl
  | cons item rest ih => rw [allOrdered, ih, List.map_cons]

theorem entriesOrdered_eq (entries : List (JsString × Tree)) :
    entriesOrdered entries = entries.map fun entry => (entry.1, entry.2.ordered) := by
  induction entries with
  | nil => rfl
  | cons entry rest ih => rw [entriesOrdered, ih, List.map_cons]

theorem height_lt_heights (items : List Tree) : ∀ item ∈ items, item.height < heights items := by
  induction items with
  | nil => simp
  | cons first rest ih =>
    intro item hmem
    rw [heights]
    cases hmem with
    | head => omega
    | tail _ hmem =>
      have := ih item hmem
      omega

theorem height_lt_entryHeights (entries : List (JsString × Tree)) :
    ∀ entry ∈ entries, entry.2.height < entryHeights entries := by
  induction entries with
  | nil => simp
  | cons first rest ih =>
    intro entry hmem
    rw [entryHeights]
    cases hmem with
    | head => omega
    | tail _ hmem =>
      have := ih entry hmem
      omega

theorem everyItem_iff {p : Tree → Prop} {items : List Tree} :
    EveryItem p items ↔ ∀ item ∈ items, item.Everywhere p := by
  induction items with
  | nil => simp [EveryItem]
  | cons item rest ih => simp [EveryItem, ih]

theorem everyValue_iff {p : Tree → Prop} {entries : List (JsString × Tree)} :
    EveryValue p entries ↔ ∀ entry ∈ entries, entry.2.Everywhere p := by
  induction entries with
  | nil => simp [EveryValue]
  | cons entry rest ih => simp [EveryValue, ih]

/-! ## Out -/

variable {A : Arrow}

theorem supportedQOperatorNames_noNul {name : JsString} (h : name ∈ supportedQOperatorNames) :
    name.includesNul = false := by
  have hall : supportedQOperatorNames.all (fun name => !name.includesNul) = true := by decide
  simpa using List.all_eq_true.mp hall name h

theorem validateQOperatorName_supported {name : JsString} (h : name ∈ supportedQOperatorNames) :
    validateQOperatorName name = .ok name := by
  rw [validateQOperatorName, supportedQOperatorNames_noNul h, if_neg (by simp), if_neg (by simpa using h)]

/-- The parts are checked and left as they are. -/
theorem validatedQLambdaParts_ok {source context : JsString} {parts : JsString × JsString}
    (h : validateQLambdaParts source context = .ok parts) :
    validatedQLambdaParts source context = .ok (source, context) := by
  have hparts : parts = (source, context) := by
    unfold validateQLambdaParts at h
    by_cases h₁ : source.includesNul = true
    · simp [h₁] at h
    by_cases h₂ : context.includesNul = true
    · simp [h₁, h₂] at h
    by_cases h₃ : context ≠ [] ∧ context.startsWith [0x2E] = true
    · simp [h₁, h₂, h₃] at h
    rw [if_neg h₁, if_neg h₂, if_neg h₃] at h
    simp only at h
    generalize (if source.trim.startsWith kLanguage = true then List.drop 2 source.trim else source.trim) =
      lambdaSource at h
    by_cases h₄ : ¬ JsString.startsWith lambdaSource [0x7B] ∨ ¬ JsString.endsWith lambdaSource [0x7D]
    · rw [if_pos h₄] at h
      cases h
    · rw [if_neg h₄] at h
      exact (Except.ok.inj h).symm
  rw [validatedQLambdaParts, h, hparts]

theorem normalizeOutputs_natives {items : List Tree}
    (h : ∀ item ∈ items, normalizeOutput item.native = .ok (item.js A)) :
    normalizeOutputs (natives items) = .ok (jsItems A items) := by
  induction items with
  | nil => rfl
  | cons item rest ih =>
    rw [natives, normalizeOutputs, h item (by simp), ih fun item hmem => h item (by simp [hmem]), jsItems]
    rfl

theorem decodeDictionary_natives (done : List (JsString × Tree)) {entries : List (JsString × Tree)}
    (h : ∀ entry ∈ entries, normalizeOutput entry.2.native = .ok (entry.2.js A))
    (hdistinct : ((done ++ entries).map Prod.fst).Nodup) :
    decodeDictionary (nativeEntries entries) (PropertyOrder.ordered arrayIndex (jsEntries A done)) =
      .ok (PropertyOrder.ordered arrayIndex (jsEntries A (done ++ entries))) := by
  induction entries generalizing done with
  | nil => rw [nativeEntries, decodeDictionary, List.append_nil]
  | cons entry rest ih =>
    obtain ⟨key, value⟩ := entry
    have hnew : key ∉ (jsEntries A done).map Prod.fst := by
      intro hmem
      rw [jsEntries_eq, List.map_map] at hmem
      rw [List.map_append, List.nodup_append] at hdistinct
      exact hdistinct.2.2 key hmem key (by simp) rfl
    have hnext : jsEntries A done ++ [(key, value.js A)] = jsEntries A (done ++ [(key, value)]) := by
      rw [jsEntries_eq, jsEntries_eq, List.map_append]
      rfl
    have hdistinct' : (((done ++ [(key, value)]) ++ rest).map Prod.fst).Nodup := by
      simpa using hdistinct
    have hrest := ih (done ++ [(key, value)]) (fun entry hmem => h entry (by simp [hmem])) hdistinct'
    rw [nativeEntries, decodeDictionary, h (key, value) (by simp)]
    show decodeDictionary _ (PropertyOrder.define arrayIndex _ key (value.js A)) = _
    rw [PropertyOrder.define_ordered arrayIndex _ hnew, hnext, hrest, List.append_assoc]
    rfl

theorem normalizeOutput_native {tree : Tree} (h : tree.Everywhere Supported) :
    normalizeOutput tree.native = .ok (tree.js A) := by
  induction tree using Tree.induct with
  | leaf tree hleaf =>
    cases tree with
    | list items => exact hleaf.elim
    | dictionary entries => exact hleaf.elim
    | operator name =>
      show (do return JsValue.operator (← validateQOperatorName name)) = _
      rw [validateQOperatorName_supported h]
      rfl
    | lambda source context =>
      obtain ⟨parts, hparts⟩ := h
      show (do
        let parts ← validatedQLambdaParts source context
        return JsValue.lambda parts.1 parts.2) = _
      rw [validatedQLambdaParts_ok hparts]
      rfl
    | _ => rfl
  | list items ih =>
    obtain ⟨-, hitems⟩ := h
    have houts := normalizeOutputs_natives fun item hmem => ih item hmem (everyItem_iff.mp hitems item hmem)
    show (do return JsValue.array (← normalizeOutputs (natives items))) = _
    rw [houts]
    rfl
  | dictionary entries ih =>
    obtain ⟨⟨hdistinct, -⟩, hvalues⟩ := h
    have houts := decodeDictionary_natives []
      (fun entry hmem => ih entry hmem (everyValue_iff.mp hvalues entry hmem)) hdistinct
    show (do return JsValue.object (← decodeDictionary (nativeEntries entries) [])) = _
    exact congrArg (fun output => do return JsValue.object (← output)) houts

/-! ## In -/

theorem normalizeItems_js {items : List Tree} {depth : Nat}
    (h : ∀ item ∈ items, normalizeInputAtDepth (item.js A) depth = .ok item.ordered.native) :
    normalizeItems (jsItems A items) depth = .ok (natives (allOrdered items)) := by
  induction items with
  | nil => rfl
  | cons item rest ih =>
    rw [jsItems, normalizeItems, h item (by simp), ih fun item hmem => h item (by simp [hmem]), allOrdered,
      natives]
    rfl

theorem normalizeDictionary_js {entries : List (JsString × Tree)} {depth : Nat}
    (hkeys : ∀ entry ∈ entries, entry.1.includesNul = false)
    (h : ∀ entry ∈ entries, normalizeInputAtDepth (entry.2.js A) depth = .ok entry.2.ordered.native) :
    normalizeDictionary (jsEntries A entries) depth = .ok (nativeEntries (entriesOrdered entries)) := by
  induction entries with
  | nil => rfl
  | cons entry rest ih =>
    obtain ⟨key, value⟩ := entry
    have hkey : key.includesNul = false := hkeys (key, value) (by simp)
    have hrest := ih (fun entry hmem => hkeys entry (by simp [hmem])) (fun entry hmem => h entry (by simp [hmem]))
    rw [jsEntries, normalizeDictionary, hkey, h (key, value) (by simp), hrest, entriesOrdered, nativeEntries]
    rfl

theorem normalizeInputAtDepth_js {tree : Tree} {depth : Nat} (h : tree.Everywhere Supported)
    (hdepth : tree.height + depth ≤ maxValueDepth) :
    normalizeInputAtDepth (tree.js A) depth = .ok tree.ordered.native := by
  have hnot : ¬ maxValueDepth < depth := by omega
  induction tree using Tree.induct generalizing depth with
  | leaf tree hleaf =>
    cases tree with
    | list items => exact hleaf.elim
    | dictionary entries => exact hleaf.elim
    | symbol value =>
      have hnul : value.includesNul = false := h
      rw [js, normalizeInputAtDepth, if_neg hnot]
      simp only [hnul, Bool.false_eq_true, if_false]
      rfl
    | operator name =>
      rw [js, normalizeInputAtDepth, if_neg hnot]
      show (do
        let name ← validateQOperatorName name
        return ({ tag := "operator", stringValue := some name } : NativeObject)) = _
      rw [validateQOperatorName_supported h]
      rfl
    | lambda source context =>
      obtain ⟨parts, hparts⟩ := h
      rw [js, normalizeInputAtDepth, if_neg hnot]
      show (do
        let parts ← validatedQLambdaParts source context
        return ({ tag := "lambda", stringValue := some parts.1, context := some parts.2 } : NativeObject)) = _
      rw [validatedQLambdaParts_ok hparts]
      rfl
    | time nanoseconds =>
      obtain ⟨hlow, hhigh, haligned⟩ := h
      have hday : ¬ (nanoseconds < 0 ∨ nanosecondsPerDay ≤ nanoseconds) := by omega
      have hmod : ¬ nanoseconds.tmod nanosecondsPerMillisecond ≠ 0 := not_not.mpr (Int.tmod_eq_zero_of_dvd haligned)
      rw [js, normalizeInputAtDepth, if_neg hnot]
      simp only [hday, hmod, if_false]
      rfl
    | _ =>
      rw [js, normalizeInputAtDepth, if_neg hnot]
      rfl
  | list items ih =>
    obtain ⟨-, hitems⟩ := h
    have hdepths := height_lt_heights items
    rw [height] at hdepth
    have hins : normalizeItems (jsItems A items) (depth + 1) = .ok (natives (allOrdered items)) := by
      apply normalizeItems_js
      intro item hmem
      have := hdepths item hmem
      exact ih item hmem (everyItem_iff.mp hitems item hmem) (by omega) (by omega)
    rw [js, normalizeInputAtDepth, if_neg hnot]
    show (do
      let items ← normalizeItems (jsItems A items) (depth + 1)
      return ({ tag := "list", items := some items } : NativeObject)) = _
    rw [hins]
    rfl
  | dictionary entries ih =>
    obtain ⟨⟨-, hkeys⟩, hvalues⟩ := h
    have hdepths := height_lt_entryHeights entries
    rw [height] at hdepth
    -- the enumerated properties are those of the entries in JavaScript's order
    have hjs : PropertyOrder.ordered arrayIndex (jsEntries A entries) =
        jsEntries A (PropertyOrder.ordered arrayIndex entries) := by
      rw [jsEntries_eq, jsEntries_eq, PropertyOrder.ordered_map]
    have hordered : PropertyOrder.ordered arrayIndex (entriesOrdered entries) =
        entriesOrdered (PropertyOrder.ordered arrayIndex entries) := by
      rw [entriesOrdered_eq, entriesOrdered_eq, PropertyOrder.ordered_map]
    have hins : normalizeDictionary (jsEntries A (PropertyOrder.ordered arrayIndex entries)) (depth + 1) =
        .ok (nativeEntries (entriesOrdered (PropertyOrder.ordered arrayIndex entries))) := by
      apply normalizeDictionary_js
      · intro entry hmem
        exact hkeys entry ((PropertyOrder.mem_ordered arrayIndex).mp hmem)
      · intro entry hmem
        have hmem' := (PropertyOrder.mem_ordered arrayIndex).mp hmem
        have := hdepths entry hmem'
        exact ih entry hmem' (everyValue_iff.mp hvalues entry hmem') (by omega) (by omega)
    rw [js, normalizeInputAtDepth, if_neg hnot, hjs, ordered, hordered]
    show (do
      let entries ← normalizeDictionary (jsEntries A (PropertyOrder.ordered arrayIndex entries)) (depth + 1)
      return ({ tag := "dictionary", entries := some entries } : NativeObject)) = _
    rw [hins]
    rfl

/-! ## The order of the entries -/

theorem map_eq_self_iff {α : Type} {f : α → α} {list : List α} : list.map f = list ↔ ∀ a ∈ list, f a = a := by
  conv_lhs => rhs; rw [← List.map_id list]
  exact List.map_inj_left

theorem ordered_eq_self_iff (tree : Tree) : tree.ordered = tree ↔ tree.Everywhere InPropertyOrder := by
  induction tree using Tree.induct with
  | leaf tree hleaf =>
    cases tree with
    | list items => exact hleaf.elim
    | dictionary entries => exact hleaf.elim
    | _ => exact iff_of_true rfl trivial
  | list items ih =>
    rw [ordered, allOrdered_eq, Tree.list.injEq, map_eq_self_iff, Everywhere, everyItem_iff]
    constructor
    · intro h
      exact ⟨trivial, fun item hmem => (ih item hmem).mp (h item hmem)⟩
    · rintro ⟨-, h⟩ item hmem
      exact (ih item hmem).mpr (h item hmem)
  | dictionary entries ih =>
    rw [ordered, Tree.dictionary.injEq, Everywhere, everyValue_iff]
    have hpairs : (entriesOrdered entries).Pairwise (PropertyOrder.Before arrayIndex) ↔
        entries.Pairwise (PropertyOrder.Before arrayIndex) := by
      rw [entriesOrdered_eq, List.pairwise_map]
      rfl
    have hvalues : entriesOrdered entries = entries ↔ ∀ entry ∈ entries, entry.2.Everywhere InPropertyOrder := by
      rw [entriesOrdered_eq, map_eq_self_iff]
      constructor
      · intro h entry hmem
        exact (ih entry hmem).mp (congrArg Prod.snd (h entry hmem))
      · intro h entry hmem
        exact Prod.ext rfl ((ih entry hmem).mpr (h entry hmem))
    constructor
    · intro h
      have hsorted : entries.Pairwise (PropertyOrder.Before arrayIndex) := by
        rw [← h]
        exact PropertyOrder.pairwise_ordered arrayIndex _
      rw [(PropertyOrder.ordered_eq_self_iff arrayIndex).mpr (hpairs.mpr hsorted)] at h
      exact ⟨hsorted, hvalues.mp h⟩
    · rintro ⟨hsorted, h⟩
      rw [(PropertyOrder.ordered_eq_self_iff arrayIndex).mpr (hpairs.mpr hsorted)]
      exact hvalues.mpr h

theorem natives_injective {items others : List Tree}
    (h : ∀ item ∈ items, ∀ other, item.native = other.native → item = other)
    (heq : natives items = natives others) : items = others := by
  induction items generalizing others with
  | nil =>
    cases others with
    | nil => rfl
    | cons other rest => cases heq
  | cons item rest ih =>
    cases others with
    | nil => cases heq
    | cons other others =>
      rw [natives, natives, List.cons.injEq] at heq
      rw [h item (by simp) other heq.1, ih (fun item hmem => h item (by simp [hmem])) heq.2]

theorem nativeEntries_injective {entries others : List (JsString × Tree)}
    (h : ∀ entry ∈ entries, ∀ other, entry.2.native = other.native → entry.2 = other)
    (heq : nativeEntries entries = nativeEntries others) : entries = others := by
  induction entries generalizing others with
  | nil =>
    cases others with
    | nil => rfl
    | cons other rest => cases heq
  | cons entry rest ih =>
    cases others with
    | nil => cases heq
    | cons other others =>
      obtain ⟨key, value⟩ := entry
      obtain ⟨key', value'⟩ := other
      rw [nativeEntries, nativeEntries, List.cons.injEq, Prod.mk.injEq] at heq
      obtain ⟨⟨rfl, hvalue⟩, hrest⟩ := heq
      obtain rfl : value = value' := h (key, value) (by simp) value' hvalue
      rw [ih (fun entry hmem => h entry (by simp [hmem])) hrest]

/-- An object carries one tree. -/
theorem native_injective {tree other : Tree} (h : tree.native = other.native) : tree = other := by
  induction tree using Tree.induct generalizing other with
  | leaf tree hleaf =>
    cases tree with
    | list items => exact hleaf.elim
    | dictionary entries => exact hleaf.elim
    | _ => cases other <;> simp_all [native]
  | list items ih =>
    cases other with
    | list others =>
      have heq : natives items = natives others := by simpa [native] using h
      exact congrArg Tree.list (natives_injective (fun item hmem other => ih item hmem) heq)
    | _ => simp [native] at h
  | dictionary entries ih =>
    cases other with
    | dictionary others =>
      have heq : nativeEntries entries = nativeEntries others := by simpa [native] using h
      exact congrArg Tree.dictionary (nativeEntries_injective (fun entry hmem other => ih entry hmem) heq)
    | _ => simp [native] at h

end Tree

/-- What comes back of an object that went through JavaScript. -/
def throughFacade (A : Arrow) (value : NativeObject) : Except ConversionError NativeObject := do
  let value : JsValue A ← normalizeOutput value
  normalizeInput value

/-- **The facade gives back the tree in JavaScript's order of keys**: the same tags, payloads and
keys at every level, the entries of each dictionary with the integer-like keys first. It is the
tree itself exactly if every dictionary in it is in that order. -/
theorem facade_returns_ordered (A : Arrow) (tree : Tree) (hsupported : tree.Everywhere Tree.Supported)
    (hheight : tree.height ≤ maxValueDepth) :
    throughFacade A tree.native = .ok tree.ordered.native ∧
      (throughFacade A tree.native = .ok tree.native ↔ tree.Everywhere Tree.InPropertyOrder) := by
  have hthrough : throughFacade A tree.native = .ok tree.ordered.native := by
    rw [throughFacade, Tree.normalizeOutput_native hsupported]
    exact Tree.normalizeInputAtDepth_js hsupported hheight
  refine ⟨hthrough, ?_⟩
  rw [hthrough, ← Tree.ordered_eq_self_iff, Except.ok.injEq]
  constructor
  · exact Tree.native_injective
  · exact congrArg Tree.native

/-- The keys `b` and `1`, in this order, under the key `__proto__`. -/
def protoTree : Tree :=
  .list [.dictionary [(ascii "__proto__", .dictionary [(ascii "b", .time 1000000), (ascii "1", .null)])]]

theorem facade_returns_ordered_proto :
    protoTree.Everywhere Tree.Supported ∧ protoTree.height ≤ maxValueDepth ∧
      (throughFacade noArrow protoTree.native = .ok protoTree.ordered.native ∧
        (throughFacade noArrow protoTree.native = .ok protoTree.native ↔
          protoTree.Everywhere Tree.InPropertyOrder)) := by
  have hsupported : protoTree.Everywhere Tree.Supported := by
    simp [protoTree, Tree.Everywhere, Tree.EveryItem, Tree.EveryValue, Tree.Supported]
    decide
  exact ⟨hsupported, by decide, facade_returns_ordered noArrow protoTree hsupported (by decide)⟩

/-- An integer-like key overtakes a key before it. -/
theorem facade_reorders_keys :
    ¬ ∀ tree : Tree, tree.Everywhere Tree.Supported → tree.height ≤ maxValueDepth →
      throughFacade noArrow tree.native = .ok tree.native := by
  intro h
  have hback := h (.dictionary [(ascii "b", .null), (ascii "1", .null)]) (by
    simp [Tree.Everywhere, Tree.EveryValue, Tree.Supported]
    decide) (by decide)
  have hordered : throughFacade noArrow (Tree.dictionary [(ascii "b", .null), (ascii "1", .null)]).native =
      .ok (Tree.dictionary [(ascii "1", .null), (ascii "b", .null)]).native := by rfl
  rw [hordered, Except.ok.injEq] at hback
  have hkeys := congrArg (fun value : NativeObject => value.entries.map (List.map Prod.fst)) hback
  revert hkeys
  decide

end Js
end Xqdb
