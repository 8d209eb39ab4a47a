import Xqdb.Python.Objects

/-! What `cast_to_k` makes of Python objects: the tree that is seen from an object decides, however its
parts are shared. -/

namespace Xqdb.Python

open ObjectGraph (Node Cyclic)

variable {Ref : Type}

/-! ## Trees -/

/-- The insertions of a dictionary. -/
def insertAll {α : Type} (dict entries : List (Str × α)) : List (Str × α) :=
  entries.foldl (fun dict entry => setEntry dict entry.1 entry.2) dict

mutual

/-- The conversion of a tree. -/
def castValue (value : Value) (depth : Nat) : Except Exception K :=
  if maxConversionDepth < depth then .error (.ValueError nestingMessage)
  else
    match value with
    | .leaf value => castLeaf value
    | .dict entries => (castValueEntries entries (depth + 1)).map fun entries => .Dict (insertAll [] entries)
    | .list items => (castValues items (depth + 1)).map .MixedList
    | .tuple items => (castValues items (depth + 1)).map .MixedList

def castValues (items : List Value) (depth : Nat) : Except Exception (List K) :=
  match items with
  | [] => .ok []
  | item :: rest => do
    let value ← castValue item depth
    let values ← castValues rest depth
    .ok (value :: values)

def castValueEntries (entries : List (Str × Value)) (depth : Nat) : Except Exception (List (Str × K)) :=
  match entries with
  | [] => .ok []
  | (key, value) :: rest => do
    let value ← castValue value depth
    let values ← castValueEntries rest depth
    .ok ((key, value) :: values)

end

/-- The tree that is seen from a reference. -/
inductive Shows (heap : Ref → Object Ref) : Ref → Value → Prop where
  | leaf {ref : Ref} {value : Leaf} (found : heap ref = .leaf value) : Shows heap ref (.leaf value)
  | dict {ref : Ref} {refs : List (Except Exception Str × Ref)} {entries : List (Str × Value)}
      (found : heap ref = .dict refs) (keys : refs.map Prod.fst = entries.map fun entry => .ok entry.1)
      (members : ∀ pair ∈ refs.zip entries, Shows heap pair.1.2 pair.2.2) : Shows heap ref (.dict entries)
  | list {ref : Ref} {refs : List Ref} {items : List Value} (found : heap ref = .list refs)
      (lengths : refs.length = items.length) (members : ∀ pair ∈ refs.zip items, Shows heap pair.1 pair.2) :
      Shows heap ref (.list items)
  | tuple {ref : Ref} {refs : List Ref} {items : List Value} (found : heap ref = .tuple refs)
      (lengths : refs.length = items.length) (members : ∀ pair ∈ refs.zip items, Shows heap pair.1 pair.2) :
      Shows heap ref (.tuple items)

/-! ## The conversion is a walk -/

/-- The members of a list or tuple have no keys. -/
def unkeyed (items : List Ref) : List (Except Exception Str × Ref) := items.map fun item => (.ok Str.empty, item)

def node : Object Ref → Node Ref Str K Exception
  | .leaf value => .leaf (castLeaf value)
  | .dict entries => .container entries fun members => .Dict (insertAll [] members)
  | .list items => .container (unkeyed items) fun members => .MixedList (members.map Prod.snd)
  | .tuple items => .container (unkeyed items) fun members => .MixedList (members.map Prod.snd)

/-- The objects as the nodes of a graph. -/
def graph (heap : Ref → Object Ref) (ref : Ref) : Node Ref Str K Exception := node (heap ref)

section

variable {follow : Ref → List Ref → Except Exception K × List Ref}

theorem castItems_eq_visit (items active : List Ref) :
    castItems follow items active = ((ObjectGraph.visit follow (unkeyed items) active).1.map (·.map Prod.snd),
      (ObjectGraph.visit follow (unkeyed items) active).2) := by
  induction items generalizing active with
  | nil => rfl
  | cons item rest ih =>
    have hkeyed : unkeyed (item :: rest) = (.ok Str.empty, item) :: unkeyed rest := rfl
    rw [castItems, hkeyed, ObjectGraph.visit]
    cases follow item active with
    | mk result after =>
      cases result with
      | error error => rfl
      | ok value =>
        dsimp only
        rw [ih]
        cases ObjectGraph.visit follow (unkeyed rest) after with
        | mk result last => cases result <;> rfl

theorem castEntries_eq_visit (entries : List (Except Exception Str × Ref)) (dict : List (Str × K)) (active : List Ref) :
    castEntries follow entries dict active = ((ObjectGraph.visit follow entries active).1.map (insertAll dict),
      (ObjectGraph.visit follow entries active).2) := by
  induction entries generalizing dict active with
  | nil => rfl
  | cons entry rest ih =>
    obtain ⟨key, ref⟩ := entry
    cases key with
    | error error => rfl
    | ok key =>
      rw [castEntries, ObjectGraph.visit]
      cases follow ref active with
      | mk result after =>
        cases result with
        | error error => rfl
        | ok value =>
          dsimp only
          rw [ih]
          cases ObjectGraph.visit follow rest after with
          | mk result last => cases result <;> rfl

end

section

variable [DecidableEq Ref] {heap : Ref → Object Ref}

theorem castToKInner_eq_walk (levels : Nat) (ref : Ref) (active : List Ref) :
    castToKInner heap levels ref active =
      ObjectGraph.walk (graph heap) (.ValueError nestingMessage) (.ValueError cyclicMessage) levels ref active := by
  induction levels generalizing ref active with
  | zero => rfl
  | succ levels ih =>
    have hsame : castToKInner heap levels = ObjectGraph.walk (graph heap) (.ValueError nestingMessage)
        (.ValueError cyclicMessage) levels := funext fun ref => funext fun active => ih ref active
    have hnode : graph heap ref = node (heap ref) := rfl
    rw [castToKInner, ObjectGraph.walk, hnode, hsame]
    -- a container that is not being walked through: one visit of its members on both sides
    have hmap {α β : Type} (result : Except Exception α) (first : α → β) (second : β → K) :
        (result.map first).map second = result.map fun found => second (first found) := by
      cases result <;> rfl
    cases heap ref with
    | leaf value => rfl
    | dict entries => simp only [node, castEntries_eq_visit, hmap]
    | list items => simp only [node, castItems_eq_visit, hmap]
    | tuple items => simp only [node, castItems_eq_visit, hmap]

end

theorem castValue_deep (value : Value) {depth : Nat} (hdepth : maxConversionDepth < depth) :
    castValue value depth = .error (.ValueError nestingMessage) := by
  rw [castValue.eq_def, if_pos hdepth]

section

variable {follow : Ref → Except Exception K} {depth : Nat}

theorem collect_items {refs : List Ref} {items : List Value} (hlength : refs.length = items.length)
    (h : ∀ pair ∈ refs.zip items, follow pair.1 = castValue pair.2 depth) :
    ObjectGraph.collect follow (unkeyed refs) = (castValues items depth).map (·.map fun item => (Str.empty, item)) := by
  induction refs generalizing items with
  | nil =>
    obtain rfl := List.length_eq_zero_iff.mp hlength.symm
    rfl
  | cons ref refs ih =>
    cases items with
    | nil => simp at hlength
    | cons item items =>
      have hkeyed : unkeyed (ref :: refs) = (.ok Str.empty, ref) :: unkeyed refs := rfl
      rw [List.zip_cons_cons] at h
      rw [hkeyed, ObjectGraph.collect, castValues, h _ List.mem_cons_self,
        ih (Nat.succ.inj hlength) fun pair hpair => h pair (List.mem_cons_of_mem _ hpair)]
      cases castValue item depth with
      | error error => rfl
      | ok found => cases castValues items depth <;> rfl

theorem collect_entries {refs : List (Except Exception Str × Ref)} {entries : List (Str × Value)}
    (hkeys : refs.map Prod.fst = entries.map fun entry => .ok entry.1)
    (h : ∀ pair ∈ refs.zip entries, follow pair.1.2 = castValue pair.2.2 depth) :
    ObjectGraph.collect follow refs = castValueEntries entries depth := by
  induction refs generalizing entries with
  | nil =>
    obtain rfl := List.map_eq_nil_iff.mp hkeys.symm
    rfl
  | cons ref refs ih =>
    cases entries with
    | nil => simp at hkeys
    | cons entry entries =>
      obtain ⟨key, ref⟩ := ref
      obtain ⟨name, value⟩ := entry
      simp only [List.map_cons, List.cons.injEq] at hkeys
      obtain ⟨rfl, hkeys⟩ := hkeys
      rw [List.zip_cons_cons] at h
      rw [ObjectGraph.collect, castValueEntries, h _ List.mem_cons_self,
        ih hkeys fun pair hpair => h pair (List.mem_cons_of_mem _ hpair)]

end

section

variable {heap : Ref → Object Ref}

/-- The levels of a tree are the levels of the walk. -/
theorem unfold_shows {ref : Ref} {value : Value} (h : Shows heap ref value) :
    ∀ levels depth, levels + depth = maxConversionDepth + 1 →
      ObjectGraph.unfold (graph heap) (.ValueError nestingMessage) levels ref = castValue value depth := by
  -- a list and a tuple differ in their kind only
  have hitems {refs : List Ref} {items : List Value} {levels depth : Nat} (hlength : refs.length = items.length)
      (hmembers : ∀ pair ∈ refs.zip items,
        ObjectGraph.unfold (graph heap) (.ValueError nestingMessage) levels pair.1 = castValue pair.2 depth) :
      (ObjectGraph.collect (ObjectGraph.unfold (graph heap) (.ValueError nestingMessage) levels) (unkeyed refs)).map
        (fun members => K.MixedList (members.map Prod.snd)) = (castValues items depth).map .MixedList := by
    rw [collect_items hlength hmembers]
    cases castValues items depth with
    | error error => rfl
    | ok found => simp only [Except.map, List.map_map, Function.comp_def, List.map_id']
  induction h with
  | @leaf ref value hfound =>
    intro levels depth hsum
    cases levels with
    | zero => rw [castValue_deep _ (by omega), ObjectGraph.unfold]
    | succ levels => rw [ObjectGraph.unfold, graph, hfound, node, castValue, if_neg (by omega)]
  | @dict ref refs entries hfound hkeys _ ih =>
    intro levels depth hsum
    cases levels with
    | zero => rw [castValue_deep _ (by omega), ObjectGraph.unfold]
    | succ levels =>
      have hcollect := collect_entries hkeys fun pair hpair => ih pair hpair levels (depth + 1) (by omega)
      rw [ObjectGraph.unfold, graph, hfound, node, castValue, if_neg (by omega)]
      dsimp only
      rw [hcollect]
  | @list ref refs items hfound hlength _ ih =>
    intro levels depth hsum
    cases levels with
    | zero => rw [castValue_deep _ (by omega), ObjectGraph.unfold]
    | succ levels =>
      rw [ObjectGraph.unfold, graph, hfound, node, castValue, if_neg (by omega)]
      exact hitems hlength fun pair hpair => ih pair hpair levels (depth + 1) (by omega)
  | @tuple ref refs items hfound hlength _ ih =>
    intro levels depth hsum
    cases levels with
    | zero => rw [castValue_deep _ (by omega), ObjectGraph.unfold]
    | succ levels =>
      rw [ObjectGraph.unfold, graph, hfound, node, castValue, if_neg (by omega)]
      exact hitems hlength fun pair hpair => ih pair hpair levels (depth + 1) (by omega)

theorem mem_unkeyed {items : List Ref} {member : Ref} :
    (∃ key, (key, member) ∈ unkeyed items) ↔ member ∈ items := by
  simp [unkeyed]

/-- What shows a tree comes to an end everywhere. -/
theorem acc_of_shows {ref : Ref} {value : Value} (h : Shows heap ref value) :
    Acc (fun member ref => ObjectGraph.Holds (graph heap) ref member) ref := by
  have hnode {ref : Ref} {object : Object Ref} (hfound : heap ref = object) : graph heap ref = node object := by
    rw [graph, hfound]
  induction h with
  | leaf hfound =>
    constructor
    intro member hholds
    exact absurd hholds (ObjectGraph.not_holds_leaf (hnode hfound))
  | @dict ref refs entries hfound hkeys _ ih =>
    constructor
    intro member hholds
    obtain ⟨key, hmember⟩ := (ObjectGraph.holds_iff (hnode hfound)).mp hholds
    have hlength : refs.length = entries.length := by
      have hlength := congrArg List.length hkeys
      rwa [List.length_map, List.length_map] at hlength
    obtain ⟨entry, hpair⟩ := ObjectGraph.exists_zip hlength hmember
    exact ih _ hpair
  | list hfound hlength _ ih =>
    constructor
    intro member hholds
    obtain ⟨item, hpair⟩ := ObjectGraph.exists_zip hlength
      (mem_unkeyed.mp ((ObjectGraph.holds_iff (hnode hfound)).mp hholds))
    exact ih _ hpair
  | tuple hfound hlength _ ih =>
    constructor
    intro member hholds
    obtain ⟨item, hpair⟩ := ObjectGraph.exists_zip hlength
      (mem_unkeyed.mp ((ObjectGraph.holds_iff (hnode hfound)).mp hholds))
    exact ih _ hpair

/-- What can be unfolded shows a tree. -/
theorem exists_shows_of_unfold {levels : Nat} {ref : Ref} {k : K}
    (h : ObjectGraph.unfold (graph heap) (.ValueError nestingMessage) levels ref = .ok k) :
    ∃ value, Shows heap ref value := by
  induction levels generalizing ref k with
  | zero => cases h
  | succ levels ih =>
    -- the members of a container that was converted
    have hmembers {members : List (Except Exception Str × Ref)} {build : List (Str × K) → K}
        (hnode : graph heap ref = .container members build) :
        ∀ member ∈ members, (∃ key, member.1 = .ok key) ∧ ∃ value, Shows heap member.2 value := by
      rw [ObjectGraph.unfold, hnode] at h
      cases hcollect : ObjectGraph.collect (ObjectGraph.unfold (graph heap) (.ValueError nestingMessage) levels)
          members with
      | error error =>
        simp only [hcollect] at h
        cases h
      | ok values =>
        intro member hmember
        obtain ⟨hkey, found, hunfold⟩ := ObjectGraph.collect_ok hcollect member hmember
        exact ⟨hkey, ih hunfold⟩
    have hitems {items : List Ref} {build : List (Str × K) → K}
        (hnode : graph heap ref = .container (unkeyed items) build) : ∀ item ∈ items, ∃ value, Shows heap item value := by
      intro item hitem
      obtain ⟨key, hmember⟩ := mem_unkeyed.mpr hitem
      exact (hmembers hnode _ hmember).2
    cases hfound : heap ref with
    | leaf value => exact ⟨.leaf value, .leaf hfound⟩
    | dict refs =>
      obtain ⟨entries, hlength, hentries⟩ := ObjectGraph.exists_partners
        (fun member hmember => by
          obtain ⟨⟨key, hkey⟩, value, hvalue⟩ :=
            hmembers (by rw [graph, hfound, node] : graph heap ref = _) member hmember
          exact ⟨(key, value), hkey, hvalue⟩ :
        ∀ member ∈ refs, ∃ entry : Str × Value, member.1 = .ok entry.1 ∧ Shows heap member.2 entry.2)
      refine ⟨.dict entries, .dict hfound ?_ fun pair hpair => (hentries pair hpair).2⟩
      have hfirst : (refs.zip entries).map Prod.fst = refs := List.map_fst_zip (Nat.le_of_eq hlength)
      have hsecond : (refs.zip entries).map Prod.snd = entries := List.map_snd_zip (Nat.le_of_eq hlength.symm)
      calc refs.map Prod.fst = ((refs.zip entries).map Prod.fst).map Prod.fst := by rw [hfirst]
        _ = ((refs.zip entries).map Prod.snd).map fun entry => .ok entry.1 := by
          rw [List.map_map, List.map_map]
          exact List.map_congr_left fun pair hpair => (hentries pair hpair).1
        _ = entries.map fun entry => .ok entry.1 := by rw [hsecond]
    | list refs =>
      obtain ⟨items, hlength, hshows⟩ := ObjectGraph.exists_partners
        (hitems (by rw [graph, hfound, node] : graph heap ref = _))
      exact ⟨.list items, .list hfound hlength hshows⟩
    | tuple refs =>
      obtain ⟨items, hlength, hshows⟩ := ObjectGraph.exists_partners
        (hitems (by rw [graph, hfound, node] : graph heap ref = _))
      exact ⟨.tuple items, .tuple hfound hlength hshows⟩

end

/-! ## The arguments of a call -/

section

variable [DecidableEq Ref] {heap : Ref → Object Ref}

/-- An object on its own, or behind others with which it shares the set. -/
theorem castToKInner_shows {ref : Ref} {value : Value} (h : Shows heap ref value) :
    castToKInner heap (maxConversionDepth + 1) ref [] = (castValue value 0, []) := by
  have hcyclic := ObjectGraph.not_cyclic_of_acc (acc_of_shows h)
  rw [castToKInner_eq_walk, ObjectGraph.walk_eq_unfold hcyclic (by simp), unfold_shows h _ 0 rfl]

theorem castItems_shows {refs : List Ref} {values : List Value} (h : List.Forall₂ (Shows heap) refs values) :
    castItems (castToKInner heap (maxConversionDepth + 1)) refs [] = (castValues values 0, []) := by
  induction h with
  | nil => rfl
  | @cons ref value refs values hshows _ ih =>
    rw [castItems, castToKInner_shows hshows, castValues]
    cases castValue value 0 with
    | error error => rfl
    | ok k =>
      dsimp only
      rw [ih]
      cases castValues values 0 <;> rfl

theorem castItems_ok {refs active : List Ref} {ks : List K}
    (h : (castItems (castToKInner heap (maxConversionDepth + 1)) refs active).1 = .ok ks) :
    ∃ values, List.Forall₂ (Shows heap) refs values := by
  induction refs generalizing active ks with
  | nil => exact ⟨[], .nil⟩
  | cons ref refs ih =>
    rw [castItems] at h
    cases hcast : castToKInner heap (maxConversionDepth + 1) ref active with
    | mk result after =>
      cases result with
      | error error =>
        rw [hcast] at h
        cases h
      | ok k =>
        rw [hcast] at h
        dsimp only at h
        cases hrest : castItems (castToKInner heap (maxConversionDepth + 1)) refs after with
        | mk result last =>
          cases result with
          | error error =>
            rw [hrest] at h
            cases h
          | ok others =>
            obtain ⟨values, hvalues⟩ := ih (by rw [hrest])
            have hwalk := congrArg Prod.fst hcast
            rw [castToKInner_eq_walk] at hwalk
            obtain ⟨value, hvalue⟩ := exists_shows_of_unfold (ObjectGraph.unfold_of_walk hwalk)
            exact ⟨value :: values, .cons hvalue hvalues⟩

end

/-- **The arguments of a call are the trees that are seen from them**, one by one: what they share,
within one or among them, changes nothing, and the set through which they all go is empty again
behind each. What comes through at all shows a tree; a container inside itself never does. -/
theorem castToKVec_exact [DecidableEq Ref] (heap : Ref → Object Ref) (arguments : List Ref) :
    (∀ values, List.Forall₂ (Shows heap) arguments values → arguments.length ≤ maxCallArguments →
      castToKVec heap arguments = castValues values 0) ∧
    (∀ ks, castToKVec heap arguments = .ok ks →
      arguments.length ≤ maxCallArguments ∧ ∃ values, List.Forall₂ (Shows heap) arguments values) ∧
    (∀ argument ∈ arguments, Cyclic (graph heap) argument → ∃ error, castToKVec heap arguments = .error error) ∧
    ∀ levels ref active, (castToKInner heap levels ref active).2 = active := by
  have hok : ∀ ks, castToKVec heap arguments = .ok ks →
      arguments.length ≤ maxCallArguments ∧ ∃ values, List.Forall₂ (Shows heap) arguments values := by
    intro ks hks
    rw [castToKVec] at hks
    by_cases hmany : maxCallArguments < arguments.length
    · rw [if_pos hmany] at hks
      cases hks
    · rw [if_neg hmany] at hks
      exact ⟨Nat.not_lt.mp hmany, castItems_ok hks⟩
  refine ⟨?_, hok, ?_, ?_⟩
  · intro values hshows hfew
    rw [castToKVec, if_neg (Nat.not_lt.mpr hfew), castItems_shows hshows]
  · intro argument hargument hcyclic
    cases hresult : castToKVec heap arguments with
    | error error => exact ⟨error, rfl⟩
    | ok ks =>
      obtain ⟨-, values, hvalues⟩ := hok ks hresult
      obtain ⟨value, hpair⟩ := ObjectGraph.exists_zip hvalues.length_eq hargument
      have hshows : Shows heap argument value := List.forall₂_zip hvalues hpair
      exact absurd hcyclic (ObjectGraph.not_cyclic_of_acc (acc_of_shows hshows))
  · intro levels ref active
    rw [castToKInner_eq_walk, ObjectGraph.walk_active]

/-- A list in two places of a tuple, and a list that holds itself. -/
def sharedAndCyclic (ref : Nat) : Object Nat :=
  match ref with
  | 0 => .tuple [1, 1]
  | 1 => .list [2]
  | 2 => .leaf (.int 7)
  | _ => .list [3]

theorem castToKVec_exact_shared :
    castToKVec sharedAndCyclic [0, 1] =
        .ok [.MixedList [.MixedList [.I64 7], .MixedList [.I64 7]], .MixedList [.I64 7]] ∧
      (castToKInner sharedAndCyclic 65 0 []).2 = [] ∧ Cyclic (graph sharedAndCyclic) 3 ∧
      ∃ error, castToKVec sharedAndCyclic [0, 3] = .error error := by
  have hinner : Shows sharedAndCyclic 1 (.list [.leaf (.int 7)]) := by
    refine @Shows.list _ sharedAndCyclic 1 [2] _ rfl rfl ?_
    simp only [List.zip_cons_cons, List.zip_nil_right, List.mem_singleton, forall_eq]
    exact .leaf rfl
  have hshows : Shows sharedAndCyclic 0 (.tuple [.list [.leaf (.int 7)], .list [.leaf (.int 7)]]) := by
    refine @Shows.tuple _ sharedAndCyclic 0 [1, 1] _ rfl rfl ?_
    simp only [List.zip_cons_cons, List.zip_nil_right, List.forall_mem_cons]
    exact ⟨hinner, hinner, by simp⟩
  have hnode : graph sharedAndCyclic 3 =
      .container (unkeyed [3]) fun members => .MixedList (members.map Prod.snd) := rfl
  have hself : ObjectGraph.Holds (graph sharedAndCyclic) 3 3 :=
    (ObjectGraph.holds_iff hnode).mpr (mem_unkeyed.mpr List.mem_cons_self)
  have hcyclic : Cyclic (graph sharedAndCyclic) 3 := ⟨3, .refl, .single hself⟩
  obtain ⟨htrees, -, -, hactive⟩ := castToKVec_exact sharedAndCyclic [0, 1]
  obtain ⟨-, -, hrefused, -⟩ := castToKVec_exact sharedAndCyclic [0, 3]
  exact ⟨htrees _ (.cons hshows (.cons hinner .nil)) (by decide), hactive 65 0 [], hcyclic,
    hrefused 3 (by decide) hcyclic⟩

end Xqdb.Python
