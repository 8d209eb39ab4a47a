import Xqdb.Js.Conversion
import Xqdb.Lib.ObjectGraph

/-! `normalizeInput` of `js-xqdb/src/conversion.ts` on the arrays and objects themselves, which can
share members and hold themselves. The source keeps those it is inside of in a `WeakSet`. -/

namespace Xqdb
namespace Js

open ObjectGraph (Node Cyclic)

variable {A : Arrow} {Ref : Type}

def JsValue.isLeaf : JsValue A → Bool
  | .array _ => false
  | .object _ => false
  | _ => true

/-- What a reference leads to. Only arrays and objects are told apart by it. `foreign` is an object
with a prototype of its own, `unsupported` whatever `typeof` has another name for. -/
inductive JsObject (A : Arrow) (Ref : Type) where
  | leaf (value : {value : JsValue A // value.isLeaf})
  | array (items : List Ref)
  | object (properties : List (JsString × Ref))
  | foreign
  | unsupported (typeName : String)

namespace Heap

def cyclicMessage : String := "Cyclic arrays and dictionaries cannot map to q values"

def depthMessage : String := "Input nesting exceeds 64 levels"

/-! ## The conversion -/

section

variable (follow : Ref → List Ref → Except ConversionError NativeObject × List Ref)

/-- `value.map` over an array, up to the first item that throws. -/
def normalizeItems : List Ref → List Ref → Except ConversionError (List NativeObject) × List Ref
  | [], active => (.ok [], active)
  | item :: rest, active =>
    match follow item active with
    | (.error error, active) => (.error error, active)
    | (.ok item, active) =>
      match normalizeItems rest active with
      | (.error error, active) => (.error error, active)
      | (.ok rest, active) => (.ok (item :: rest), active)

def normalizeDictionary : List (JsString × Ref) → List Ref →
    Except ConversionError (List (JsString × NativeObject)) × List Ref
  | [], active => (.ok [], active)
  | (key, value) :: rest, active =>
    if key.includesNul then (conversionError "q dictionary keys cannot contain NUL bytes", active)
    else
      match follow value active with
      | (.error error, active) => (.error error, active)
      | (.ok value, active) =>
        match normalizeDictionary rest active with
        | (.error error, active) => (.error error, active)
        | (.ok rest, active) => (.ok ((key, value) :: rest), active)

end

section

variable [DecidableEq Ref] (heap : Ref → JsObject A Ref)

/-- `normalizeInputAtDepth`, by the levels that are left. -/
def normalizeInputAtDepth : Nat → Ref → List Ref → Except ConversionError NativeObject × List Ref
  | 0, _, active => (conversionError depthMessage, active)
  | levels + 1, ref, active =>
    match heap ref with
    | .leaf value => (Js.normalizeInputAtDepth value.1 0, active)
    | .array items =>
      if ref ∈ active then (conversionError cyclicMessage, active)
      else
        let items := normalizeItems (normalizeInputAtDepth levels) items (ref :: active)
        (items.1.map fun items => { tag := "list", items := some items }, items.2.erase ref)
    | .object properties =>
      if ref ∈ active then (conversionError cyclicMessage, active)
      else
        let entries := normalizeDictionary (normalizeInputAtDepth levels) properties (ref :: active)
        (entries.1.map fun entries => { tag := "dictionary", entries := some entries }, entries.2.erase ref)
    | .foreign => (conversionError "Only plain string-keyed objects can map to q dictionaries", active)
    | .unsupported typeName => (conversionError s!"Unsupported JavaScript input type: {typeName}", active)

def normalizeInput (ref : Ref) : Except ConversionError NativeObject :=
  (normalizeInputAtDepth heap (maxValueDepth + 1) ref []).1

end

/-! ## It is a walk -/

/-- The members of an object with what their keys come to. -/
def keyed (properties : List (JsString × Ref)) : List (Except ConversionError JsString × Ref) :=
  properties.map fun property =>
    (if property.1.includesNul then conversionError "q dictionary keys cannot contain NUL bytes" else .ok property.1,
      property.2)

def node : JsObject A Ref → Node Ref JsString NativeObject ConversionError
  | .leaf value => .leaf (Js.normalizeInputAtDepth value.1 0)
  | .array items => .container (items.map fun item => (.ok [], item))
      fun members => { tag := "list", items := some (members.map Prod.snd) }
  | .object properties => .container (keyed properties) fun members => { tag := "dictionary", entries := some members }
  | .foreign => .leaf (conversionError "Only plain string-keyed objects can map to q dictionaries")
  | .unsupported typeName => .leaf (conversionError s!"Unsupported JavaScript input type: {typeName}")

section

variable {follow : Ref → List Ref → Except ConversionError NativeObject × List Ref}

theorem normalizeItems_eq_visit (items active : List Ref) :
    normalizeItems follow items active =
      ((ObjectGraph.visit follow (items.map fun item => (.ok ([] : JsString), item)) active).1.map (·.map Prod.snd),
        (ObjectGraph.visit follow (items.map fun item => (.ok ([] : JsString), item)) active).2) := by
  induction items generalizing active with
  | nil => rfl
  | cons item rest ih =>
    rw [normalizeItems, List.map_cons, ObjectGraph.visit]
    cases follow item active with
    | mk result after =>
      cases result with
      | error error => rfl
      | ok value =>
        dsimp only
        rw [ih]
        cases ObjectGraph.visit follow (rest.map fun item => (.ok ([] : JsString), item)) after with
        | mk result last => cases result <;> rfl

theorem normalizeDictionary_eq_visit (properties : List (JsString × Ref)) (active : List Ref) :
    normalizeDictionary follow properties active = ObjectGraph.visit follow (keyed properties) active := by
  induction properties generalizing active with
  | nil => rfl
  | cons property rest ih =>
    obtain ⟨key, value⟩ := property
    have hkeyed : keyed ((key, value) :: rest) =
        (if key.includesNul then conversionError "q dictionary keys cannot contain NUL bytes" else .ok key, value) ::
          keyed rest := rfl
    rw [normalizeDictionary, hkeyed]
    by_cases hnul : key.includesNul = true
    · simp only [hnul, if_true]
      rfl
    · simp only [hnul, Bool.false_eq_true, if_false, ObjectGraph.visit]
      cases follow value active with
      | mk result after =>
        cases result with
        | error error => rfl
        | ok found =>
          dsimp only
          rw [ih]
          cases ObjectGraph.visit follow (keyed rest) after with
          | mk result last => cases result <;> rfl

end

section

variable (heap : Ref → JsObject A Ref)

/-- The objects as the nodes of a graph. -/
def graph (ref : Ref) : Node Ref JsString NativeObject ConversionError := node (heap ref)

variable [DecidableEq Ref] {heap}

theorem normalizeInputAtDepth_eq_walk (levels : Nat) (ref : Ref) (active : List Ref) :
    normalizeInputAtDepth heap levels ref active =
      ObjectGraph.walk (graph heap) ⟨depthMessage, none⟩ ⟨cyclicMessage, none⟩ levels ref active := by
  induction levels generalizing ref active with
  | zero => rfl
  | succ levels ih =>
    have hsame : normalizeInputAtDepth heap levels = ObjectGraph.walk (graph heap) ⟨depthMessage, none⟩
        ⟨cyclicMessage, none⟩ levels := funext fun ref => funext fun active => ih ref active
    have hnode : graph heap ref = node (heap ref) := rfl
    rw [normalizeInputAtDepth, ObjectGraph.walk, hnode, hsame]
    cases heap ref with
    | leaf value => rfl
    | array items =>
      simp only [node, normalizeItems_eq_visit]
      by_cases hmem : ref ∈ active
      · simp only [hmem, if_true]
        rfl
      · simp only [hmem, if_false]
        generalize ObjectGraph.visit (ObjectGraph.walk (graph heap) ⟨depthMessage, none⟩ ⟨cyclicMessage, none⟩ levels)
          (items.map fun item => (.ok ([] : JsString), item)) (ref :: active) = visited
        cases visited.1 <;> rfl
    | object properties =>
      simp only [node, normalizeDictionary_eq_visit]
      by_cases hmem : ref ∈ active
      · simp only [hmem, if_true]
        rfl
      · simp only [hmem, if_false]
    | foreign => rfl
    | unsupported typeName => rfl

end

/-! ## Trees -/

/-- The tree that is seen from a reference. -/
inductive Shows (heap : Ref → JsObject A Ref) : Ref → JsValue A → Prop where
  | leaf {ref : Ref} {value : {value : JsValue A // value.isLeaf}} (found : heap ref = .leaf value) : Shows heap ref value.1
  | array {ref : Ref} {refs : List Ref} {items : List (JsValue A)} (found : heap ref = .array refs)
      (lengths : refs.length = items.length) (members : ∀ pair ∈ refs.zip items, Shows heap pair.1 pair.2) :
      Shows heap ref (.array items)
  | object {ref : Ref} {refs : List (JsString × Ref)} {properties : List (JsString × JsValue A)}
      (found : heap ref = .object refs) (keys : refs.map Prod.fst = properties.map Prod.fst)
      (members : ∀ pair ∈ refs.zip properties, Shows heap pair.1.2 pair.2.2) : Shows heap ref (.object properties)

theorem normalizeInputAtDepth_leaf {value : JsValue A} (hleaf : value.isLeaf = true) {depth : Nat}
    (hdepth : depth ≤ maxValueDepth) : Js.normalizeInputAtDepth value depth = Js.normalizeInputAtDepth value 0 := by
  have hnot : ¬ maxValueDepth < depth := Nat.not_lt.mpr hdepth
  have hzero : ¬ maxValueDepth < 0 := Nat.not_lt_zero _
  cases value with
  | array items => cases hleaf
  | object properties => cases hleaf
  | _ => rw [Js.normalizeInputAtDepth, Js.normalizeInputAtDepth, if_neg hnot, if_neg hzero]

theorem normalizeInputAtDepth_deep (value : JsValue A) {depth : Nat} (hdepth : maxValueDepth < depth) :
    Js.normalizeInputAtDepth value depth = conversionError depthMessage := by
  rw [Js.normalizeInputAtDepth.eq_def, if_pos hdepth]
  rfl

section

variable {follow : Ref → Except ConversionError NativeObject} {depth : Nat}

theorem collect_items {refs : List Ref} {items : List (JsValue A)} (hlength : refs.length = items.length)
    (h : ∀ pair ∈ refs.zip items, follow pair.1 = Js.normalizeInputAtDepth pair.2 depth) :
    ObjectGraph.collect follow (refs.map fun ref => (.ok ([] : JsString), ref)) =
      (Js.normalizeItems items depth).map (·.map fun item => ([], item)) := by
  induction refs generalizing items with
  | nil =>
    obtain rfl := List.length_eq_zero_iff.mp hlength.symm
    rfl
  | cons ref refs ih =>
    cases items with
    | nil => simp at hlength
    | cons item items =>
      rw [List.zip_cons_cons] at h
      rw [List.map_cons, ObjectGraph.collect, Js.normalizeItems, h _ List.mem_cons_self,
        ih (Nat.succ.inj hlength) fun pair hpair => h pair (List.mem_cons_of_mem _ hpair)]
      cases Js.normalizeInputAtDepth item depth with
      | error error => rfl
      | ok found => cases Js.normalizeItems items depth <;> rfl

theorem collect_entries {refs : List (JsString × Ref)} {properties : List (JsString × JsValue A)}
    (hkeys : refs.map Prod.fst = properties.map Prod.fst)
    (h : ∀ pair ∈ refs.zip properties, follow pair.1.2 = Js.normalizeInputAtDepth pair.2.2 depth) :
    ObjectGraph.collect follow (keyed refs) = Js.normalizeDictionary properties depth := by
  induction refs generalizing properties with
  | nil =>
    obtain rfl := List.map_eq_nil_iff.mp hkeys.symm
    rfl
  | cons ref refs ih =>
    cases properties with
    | nil => simp at hkeys
    | cons property properties =>
      obtain ⟨key, ref⟩ := ref
      obtain ⟨key', value⟩ := property
      simp only [List.map_cons, List.cons.injEq] at hkeys
      obtain ⟨rfl, hkeys⟩ := hkeys
      rw [List.zip_cons_cons] at h
      have hkeyed : keyed ((key, ref) :: refs) =
          (if key.includesNul then conversionError "q dictionary keys cannot contain NUL bytes" else .ok key, ref) ::
            keyed refs := rfl
      rw [hkeyed, Js.normalizeDictionary]
      by_cases hnul : key.includesNul = true
      · simp only [hnul, if_true]
        rfl
      · simp only [hnul, Bool.false_eq_true, if_false, ObjectGraph.collect]
        rw [h _ List.mem_cons_self, ih hkeys fun pair hpair => h pair (List.mem_cons_of_mem _ hpair)]
        rfl

end

section

variable {heap : Ref → JsObject A Ref}

/-- Unfolding what shows a tree converts the tree. -/
theorem unfold_shows {ref : Ref} {value : JsValue A} (h : Shows heap ref value) :
    ∀ levels depth, levels + depth = maxValueDepth + 1 →
      ObjectGraph.unfold (graph heap) ⟨depthMessage, none⟩ levels ref = Js.normalizeInputAtDepth value depth := by
  induction h with
  | @leaf ref value hfound =>
    intro levels depth hsum
    cases levels with
    | zero =>
      rw [normalizeInputAtDepth_deep _ (by omega)]
      rfl
    | succ levels =>
      rw [normalizeInputAtDepth_leaf value.2 (by omega), ObjectGraph.unfold, graph, hfound, node]
  | @array ref refs items hfound hlength _ ih =>
    intro levels depth hsum
    cases levels with
    | zero =>
      rw [normalizeInputAtDepth_deep _ (by omega)]
      rfl
    | succ levels =>
      have hcollect := collect_items hlength fun pair hpair => ih pair hpair levels (depth + 1) (by omega)
      rw [ObjectGraph.unfold, graph, hfound, node, Js.normalizeInputAtDepth, if_neg (by omega)]
      dsimp only
      rw [hcollect]
      cases Js.normalizeItems items (depth + 1) with
      | error error => rfl
      | ok found =>
        simp only [Except.map, List.map_map, Function.comp_def, List.map_id']
        rfl
  | @object ref refs properties hfound hkeys _ ih =>
    intro levels depth hsum
    cases levels with
    | zero =>
      rw [normalizeInputAtDepth_deep _ (by omega)]
      rfl
    | succ levels =>
      have hcollect := collect_entries hkeys fun pair hpair => ih pair hpair levels (depth + 1) (by omega)
      rw [ObjectGraph.unfold, graph, hfound, node, Js.normalizeInputAtDepth, if_neg (by omega)]
      dsimp only
      rw [hcollect]
      cases Js.normalizeDictionary properties (depth + 1) <;> rfl

theorem holds_array {ref member : Ref} {refs : List Ref} (hfound : heap ref = .array refs) :
    ObjectGraph.Holds (graph heap) ref member ↔ member ∈ refs := by
  have hnode : graph heap ref = node (JsObject.array refs : JsObject A Ref) := by rw [graph, hfound]
  rw [ObjectGraph.holds_iff hnode]
  simp

theorem holds_object {ref member : Ref} {refs : List (JsString × Ref)} (hfound : heap ref = .object refs) :
    ObjectGraph.Holds (graph heap) ref member ↔ member ∈ refs.map Prod.snd := by
  have hnode : graph heap ref = node (JsObject.object refs : JsObject A Ref) := by rw [graph, hfound]
  rw [ObjectGraph.holds_iff hnode]
  simp [keyed]

theorem length_of_keys {refs : List (JsString × Ref)} {properties : List (JsString × JsValue A)}
    (hkeys : refs.map Prod.fst = properties.map Prod.fst) : refs.length = properties.length := by
  have hlength := congrArg List.length hkeys
  rwa [List.length_map, List.length_map] at hlength

/-- What shows a tree comes to an end everywhere. -/
theorem acc_of_shows {ref : Ref} {value : JsValue A} (h : Shows heap ref value) :
    Acc (fun member ref => ObjectGraph.Holds (graph heap) ref member) ref := by
  induction h with
  | leaf hfound =>
    constructor
    intro member hholds
    exact absurd hholds (ObjectGraph.not_holds_leaf (by rw [graph, hfound, node]))
  | array hfound hlength _ ih =>
    constructor
    intro member hholds
    obtain ⟨item, hpair⟩ := ObjectGraph.exists_zip hlength ((holds_array hfound).mp hholds)
    exact ih _ hpair
  | object hfound hkeys _ ih =>
    constructor
    intro member hholds
    obtain ⟨property, hproperty, rfl⟩ := List.mem_map.mp ((holds_object hfound).mp hholds)
    obtain ⟨entry, hpair⟩ := ObjectGraph.exists_zip (length_of_keys hkeys) hproperty
    exact ih _ hpair

/-- An object all of whose members show a tree shows one. -/
theorem exists_properties {refs : List (JsString × Ref)} (h : ∀ ref ∈ refs.map Prod.snd, ∃ value, Shows heap ref value) :
    ∃ properties, refs.map Prod.fst = properties.map Prod.fst ∧
      ∀ pair ∈ refs.zip properties, Shows heap pair.1.2 pair.2.2 := by
  obtain ⟨properties, hlength, hproperties⟩ := ObjectGraph.exists_partners
    (fun property hproperty => by
      obtain ⟨value, hvalue⟩ := h property.2 (List.mem_map_of_mem hproperty)
      exact ⟨(property.1, value), rfl, hvalue⟩ :
    ∀ property ∈ refs, ∃ found : JsString × JsValue A, property.1 = found.1 ∧ Shows heap property.2 found.2)
  refine ⟨properties, ?_, fun pair hpair => (hproperties pair hpair).2⟩
  have hfirst : (refs.zip properties).map Prod.fst = refs := List.map_fst_zip (Nat.le_of_eq hlength)
  have hsecond : (refs.zip properties).map Prod.snd = properties := List.map_snd_zip (Nat.le_of_eq hlength.symm)
  calc refs.map Prod.fst = ((refs.zip properties).map Prod.fst).map Prod.fst := by rw [hfirst]
    _ = ((refs.zip properties).map Prod.snd).map Prod.fst := by
      rw [List.map_map, List.map_map]
      exact List.map_congr_left fun pair hpair => (hproperties pair hpair).1
    _ = properties.map Prod.fst := by rw [hsecond]

/-- Nothing below the reference is of a kind that has no conversion. -/
def Plain (heap : Ref → JsObject A Ref) (ref : Ref) : Prop :=
  ∀ object, Relation.ReflTransGen (ObjectGraph.Holds (graph heap)) ref object →
    heap object ≠ .foreign ∧ ∀ typeName, heap object ≠ .unsupported typeName

theorem exists_shows_of_acc {ref : Ref} (h : Acc (fun member ref => ObjectGraph.Holds (graph heap) ref member) ref)
    (hplain : Plain heap ref) : ∃ value, Shows heap ref value := by
  induction h with
  | intro ref _ ih =>
    have hbelow : ∀ member, ObjectGraph.Holds (graph heap) ref member → ∃ value, Shows heap member value :=
      fun member hholds => ih member hholds fun object hreach => hplain object (.head hholds hreach)
    cases hfound : heap ref with
    | leaf value => exact ⟨value.1, .leaf hfound⟩
    | array refs =>
      obtain ⟨items, hlength, hitems⟩ := ObjectGraph.exists_partners fun member hmember =>
        hbelow member ((holds_array hfound).mpr hmember)
      exact ⟨.array items, .array hfound hlength hitems⟩
    | object refs =>
      obtain ⟨properties, hkeys, hproperties⟩ := exists_properties fun member hmember =>
        hbelow member ((holds_object hfound).mpr hmember)
      exact ⟨.object properties, .object hfound hkeys hproperties⟩
    | foreign => exact absurd hfound (hplain ref .refl).1
    | unsupported typeName => exact absurd hfound ((hplain ref .refl).2 typeName)

/-- What can be unfolded shows a tree. -/
theorem exists_shows_of_unfold {levels : Nat} {ref : Ref} {result : NativeObject}
    (h : ObjectGraph.unfold (graph heap) ⟨depthMessage, none⟩ levels ref = .ok result) : ∃ value, Shows heap ref value := by
  induction levels generalizing ref result with
  | zero => cases h
  | succ levels ih =>
    rw [ObjectGraph.unfold, graph] at h
    cases hfound : heap ref with
    | leaf value => exact ⟨value.1, .leaf hfound⟩
    | array refs =>
      rw [hfound, node] at h
      dsimp only at h
      cases hcollect : ObjectGraph.collect (ObjectGraph.unfold (graph heap) ⟨depthMessage, none⟩ levels)
          (refs.map fun item => (.ok ([] : JsString), item)) with
      | error error =>
        rw [hcollect] at h
        cases h
      | ok values =>
        have hmembers := ObjectGraph.collect_ok hcollect
        obtain ⟨items, hlength, hitems⟩ := ObjectGraph.exists_partners fun member hmember => by
          obtain ⟨-, found, hunfold⟩ := hmembers _ (List.mem_map_of_mem hmember)
          exact ih hunfold
        exact ⟨.array items, .array hfound hlength hitems⟩
    | object refs =>
      rw [hfound, node] at h
      dsimp only at h
      cases hcollect : ObjectGraph.collect (ObjectGraph.unfold (graph heap) ⟨depthMessage, none⟩ levels) (keyed refs) with
      | error error =>
        rw [hcollect] at h
        cases h
      | ok values =>
        have hmembers := ObjectGraph.collect_ok hcollect
        obtain ⟨properties, hkeys, hproperties⟩ := exists_properties fun member hmember => by
          obtain ⟨property, hproperty, rfl⟩ := List.mem_map.mp hmember
          obtain ⟨-, found, hunfold⟩ := hmembers _ (List.mem_map_of_mem hproperty)
          exact ih hunfold
        exact ⟨.object properties, .object hfound hkeys hproperties⟩
    | foreign =>
      rw [hfound, node] at h
      cases h
    | unsupported typeName =>
      rw [hfound, node] at h
      cases h

theorem Shows.plain {ref : Ref} {value : JsValue A} (h : Shows heap ref value) : Plain heap ref := by
  have hroot : ∀ {ref value}, Shows heap ref value → heap ref ≠ .foreign ∧ ∀ typeName, heap ref ≠ .unsupported typeName := by
    intro ref value h
    cases h with
    | leaf hfound => simp [hfound]
    | array hfound => simp [hfound]
    | object hfound => simp [hfound]
  intro object hreach
  -- every member of a tree shows a tree of its own
  have hshows : ∃ value, Shows heap object value := by
    induction hreach with
    | refl => exact ⟨value, h⟩
    | @tail upper lower _ hholds ih =>
      obtain ⟨found, hupper⟩ := ih
      cases hupper with
      | leaf hfound =>
        exact absurd hholds (ObjectGraph.not_holds_leaf (by rw [graph, hfound, node]))
      | array hfound hlength hmembers =>
        obtain ⟨item, hpair⟩ := ObjectGraph.exists_zip hlength ((holds_array hfound).mp hholds)
        exact ⟨item, hmembers _ hpair⟩
      | object hfound hkeys hmembers =>
        obtain ⟨property, hproperty, rfl⟩ := List.mem_map.mp ((holds_object hfound).mp hholds)
        obtain ⟨entry, hpair⟩ := ObjectGraph.exists_zip (length_of_keys hkeys) hproperty
        exact ⟨entry.2, hmembers _ hpair⟩
  obtain ⟨found, hobject⟩ := hshows
  exact hroot hobject

end

/-- **Arrays and objects are converted as the tree that is seen from them.** Members that are shared
count each time they are seen and change nothing else, an error included; what shows no tree is
refused, and among finitely many objects this is what is inside itself somewhere or has something
below it that has no conversion. The set of what is under way is as before behind every call. -/
theorem normalizeInput_exact [DecidableEq Ref] (heap : Ref → JsObject A Ref) (ref : Ref) :
    (∀ value, Shows heap ref value → normalizeInput heap ref = Js.normalizeInput value) ∧
    ((¬ ∃ value, Shows heap ref value) → ∃ error, normalizeInput heap ref = .error error) ∧
    (Finite Ref → ((∃ value, Shows heap ref value) ↔ ¬ Cyclic (graph heap) ref ∧ Plain heap ref)) ∧
    ∀ levels active, (normalizeInputAtDepth heap levels ref active).2 = active := by
  have hwalk : normalizeInput heap ref = (ObjectGraph.walk (graph heap) ⟨depthMessage, none⟩ ⟨cyclicMessage, none⟩
      (maxValueDepth + 1) ref []).1 := by
    rw [normalizeInput, normalizeInputAtDepth_eq_walk]
  refine ⟨?_, ?_, ?_, ?_⟩
  · intro value hshows
    have hcyclic := ObjectGraph.not_cyclic_of_acc (acc_of_shows hshows)
    rw [hwalk, ObjectGraph.walk_eq_unfold hcyclic (by simp), unfold_shows hshows _ 0 rfl, Js.normalizeInput]
  · intro hnone
    cases hresult : normalizeInput heap ref with
    | error error => exact ⟨error, rfl⟩
    | ok result =>
      rw [hwalk] at hresult
      exact absurd (exists_shows_of_unfold (ObjectGraph.unfold_of_walk hresult)) hnone
  · intro _
    constructor
    · rintro ⟨value, hshows⟩
      exact ⟨ObjectGraph.not_cyclic_of_acc (acc_of_shows hshows), hshows.plain⟩
    · rintro ⟨hcyclic, hplain⟩
      exact exists_shows_of_acc (ObjectGraph.acc_of_not_cyclic hcyclic) hplain
  · intro levels active
    rw [normalizeInputAtDepth_eq_walk, ObjectGraph.walk_active]

/-- An array with one and the same array in two places, and an array whose only item is the array. -/
def sharedAndCyclic (ref : Fin 4) : JsObject noArrow (Fin 4) :=
  match ref with
  | 0 => .array [1, 1]
  | 1 => .array [2]
  | 2 => .leaf ⟨.boolean true, rfl⟩
  | 3 => .array [3]

theorem normalizeInput_exact_shared :
    normalizeInput sharedAndCyclic 0 =
        Js.normalizeInput (.array [.array [.boolean true], .array [.boolean true]] : JsValue noArrow) ∧
      (normalizeInputAtDepth sharedAndCyclic 65 0 []).2 = [] ∧ Cyclic (graph sharedAndCyclic) 3 ∧
      (¬ ∃ value, Shows sharedAndCyclic 3 value) ∧ ∃ error, normalizeInput sharedAndCyclic 3 = .error error := by
  have hinner : Shows sharedAndCyclic 1 (.array [.boolean true]) := by
    refine @Shows.array noArrow _ sharedAndCyclic 1 [2] _ rfl rfl ?_
    simp only [List.zip_cons_cons, List.zip_nil_right, List.mem_singleton, forall_eq]
    exact @Shows.leaf noArrow _ sharedAndCyclic 2 ⟨.boolean true, rfl⟩ rfl
  have hshows : Shows sharedAndCyclic 0 (.array [.array [.boolean true], .array [.boolean true]]) := by
    refine @Shows.array noArrow _ sharedAndCyclic 0 [1, 1] _ rfl rfl ?_
    simp only [List.zip_cons_cons, List.zip_nil_right, List.forall_mem_cons]
    exact ⟨hinner, hinner, by simp⟩
  have hself : ObjectGraph.Holds (graph sharedAndCyclic) 3 3 := (holds_array rfl).mpr List.mem_cons_self
  have hcyclic : Cyclic (graph sharedAndCyclic) 3 := ⟨3, .refl, .single hself⟩
  obtain ⟨htree, -, -, hactive⟩ := normalizeInput_exact sharedAndCyclic 0
  obtain ⟨-, hrefused, hseen, -⟩ := normalizeInput_exact sharedAndCyclic 3
  have hnone : ¬ ∃ value, Shows sharedAndCyclic 3 value := fun hvalue =>
    ((hseen inferInstance).mp hvalue).1 hcyclic
  exact ⟨htree _ hshows, hactive 65 [], hcyclic, hnone, hrefused hnone⟩

end Heap
end Js
end Xqdb
