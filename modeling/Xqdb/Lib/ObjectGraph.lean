import Mathlib.Data.Fintype.EquivFin
import Mathlib.Data.List.Basic
import Mathlib.Logic.Relation
import Mathlib.Order.WellFounded
import Mathlib.Tactic.Common

/-! Objects that refer to each other, converted by a recursive walk. The walk goes down a limited
number of levels and keeps the containers that it is inside of, so that a container inside itself
is refused at once. -/

namespace ObjectGraph

variable {Ref Key Value Error : Type}

/-- What a reference leads to: something with a result of its own, or a container whose members
are checked and followed one by one. -/
inductive Node (Ref Key Value Error : Type) where
  | leaf (result : Except Error Value)
  | container (members : List (Except Error Key × Ref)) (build : List (Key × Value) → Value)

/-- The members in their order, up to the first that fails. The set is handed from one to the next. -/
def visit (follow : Ref → List Ref → Except Error Value × List Ref) :
    List (Except Error Key × Ref) → List Ref → Except Error (List (Key × Value)) × List Ref
  | [], active => (.ok [], active)
  | (.error error, _) :: _, active => (.error error, active)
  | (.ok key, ref) :: members, active =>
    match follow ref active with
    | (.error error, active) => (.error error, active)
    | (.ok value, active) =>
      match visit follow members active with
      | (.error error, active) => (.error error, active)
      | (.ok values, active) => (.ok ((key, value) :: values), active)

/-- The members when nothing has to be remembered. -/
def collect (follow : Ref → Except Error Value) :
    List (Except Error Key × Ref) → Except Error (List (Key × Value))
  | [] => .ok []
  | (.error error, _) :: _ => .error error
  | (.ok key, ref) :: members => do
    let value ← follow ref
    let values ← collect follow members
    .ok ((key, value) :: values)

section

variable [DecidableEq Ref] (graph : Ref → Node Ref Key Value Error) (tooDeep cyclic : Error)

/-- The walk, with the containers that are being walked through; a container leaves the set on every
way out of it. -/
def walk : Nat → Ref → List Ref → Except Error Value × List Ref
  | 0, _, active => (.error tooDeep, active)
  | levels + 1, ref, active =>
    match graph ref with
    | .leaf result => (result, active)
    | .container members build =>
      if ref ∈ active then (.error cyclic, active)
      else
        let visited := visit (walk levels) members (ref :: active)
        (visited.1.map build, visited.2.erase ref)

end

section

variable (graph : Ref → Node Ref Key Value Error) (tooDeep : Error)

/-- The walk that looks at the levels only. -/
def unfold : Nat → Ref → Except Error Value
  | 0, _ => .error tooDeep
  | levels + 1, ref =>
    match graph ref with
    | .leaf result => result
    | .container members build => (collect (unfold levels) members).map build

/-- One container holds the other object. -/
def Holds (ref member : Ref) : Prop :=
  ∃ members build, graph ref = .container members build ∧ ∃ key, (key, member) ∈ members

/-- Some container below `ref` is inside itself. -/
def Cyclic (ref : Ref) : Prop :=
  ∃ inside, Relation.ReflTransGen (Holds graph) ref inside ∧ Relation.TransGen (Holds graph) inside inside

end

/-! ## Members across from each other -/

/-- A member stands across from something when the other list is as long. -/
theorem exists_zip {α β : Type} {first : List α} {second : List β} (hlength : first.length = second.length) {a : α}
    (h : a ∈ first) : ∃ b, (a, b) ∈ first.zip second := by
  have hmem : a ∈ (first.zip second).map Prod.fst := by
    rw [List.map_fst_zip (Nat.le_of_eq hlength)]
    exact h
  obtain ⟨pair, hpair, rfl⟩ := List.mem_map.mp hmem
  exact ⟨pair.2, hpair⟩

/-- Members that each have a partner have a list of partners. -/
theorem exists_partners {α β : Type} {Fits : α → β → Prop} {first : List α} (h : ∀ a ∈ first, ∃ b, Fits a b) :
    ∃ second, first.length = second.length ∧ ∀ pair ∈ first.zip second, Fits pair.1 pair.2 := by
  induction first with
  | nil => exact ⟨[], rfl, by simp⟩
  | cons a first ih =>
    obtain ⟨⟨b, hb⟩, hrest⟩ := List.forall_mem_cons.mp h
    obtain ⟨second, hlength, hsecond⟩ := ih hrest
    refine ⟨b :: second, by rw [List.length_cons, List.length_cons, hlength], ?_⟩
    rw [List.zip_cons_cons]
    exact List.forall_mem_cons.mpr ⟨hb, hsecond⟩

/-! ## The set -/

section

variable {follow : Ref → List Ref → Except Error Value × List Ref}

theorem visit_active (hfollow : ∀ ref active, (follow ref active).2 = active)
    (members : List (Except Error Key × Ref)) (active : List Ref) : (visit follow members active).2 = active := by
  induction members generalizing active with
  | nil => rfl
  | cons member members ih =>
    obtain ⟨key, ref⟩ := member
    cases key with
    | error error => rfl
    | ok key =>
      have hsame := hfollow ref active
      rw [visit]
      revert hsame
      cases follow ref active with
      | mk result after =>
        rintro rfl
        cases result with
        | error error => rfl
        | ok value =>
          have hrest := ih after
          revert hrest
          dsimp only
          cases visit follow members after with
          | mk result rest =>
            rintro rfl
            cases result <;> rfl

/-- If what is followed is unfolding on these members, so is the visit. -/
theorem visit_eq_collect {plain : Ref → Except Error Value} {members : List (Except Error Key × Ref)} {active : List Ref}
    (h : ∀ member ∈ members, follow member.2 active = (plain member.2, active)) :
    visit follow members active = (collect plain members, active) := by
  induction members with
  | nil => rfl
  | cons member members ih =>
    obtain ⟨key, ref⟩ := member
    cases key with
    | error error => rfl
    | ok key =>
      have hrest := ih fun member hmember => h member (List.mem_cons_of_mem _ hmember)
      rw [visit, collect, h (.ok key, ref) List.mem_cons_self]
      cases plain ref with
      | error error => rfl
      | ok value =>
        dsimp only
        rw [hrest]
        cases collect plain members with
        | error error => rfl
        | ok values => rfl

/-- Members that were all followed to a value give the same values to whatever agrees on them. -/
theorem collect_of_visit {plain : Ref → Except Error Value}
    (hfollow : ∀ ref active value, (follow ref active).1 = .ok value → plain ref = .ok value)
    {members : List (Except Error Key × Ref)} {active : List Ref} {values : List (Key × Value)}
    (h : (visit follow members active).1 = .ok values) : collect plain members = .ok values := by
  induction members generalizing active values with
  | nil => exact h
  | cons member members ih =>
    obtain ⟨key, ref⟩ := member
    cases key with
    | error error => cases h
    | ok key =>
      rw [visit] at h
      have hvalue := hfollow ref active
      revert h hvalue
      cases follow ref active with
      | mk result after =>
        cases result with
        | error error =>
          intro h
          cases h
        | ok value =>
          intro h hvalue
          have hrest := @ih after
          dsimp only at h
          revert h hrest
          cases visit follow members after with
          | mk result rest =>
            cases result with
            | error error =>
              intro h
              cases h
            | ok others =>
              intro h hrest
              cases h
              rw [collect, hvalue value rfl, hrest rfl]
              rfl

end

section

variable [DecidableEq Ref] {graph : Ref → Node Ref Key Value Error} {tooDeep cyclic : Error}

/-- The set is as it was, whatever came of the walk. -/
theorem walk_active (levels : Nat) (ref : Ref) (active : List Ref) :
    (walk graph tooDeep cyclic levels ref active).2 = active := by
  induction levels generalizing ref active with
  | zero => rfl
  | succ levels ih =>
    rw [walk]
    cases graph ref with
    | leaf result => rfl
    | container members build =>
      by_cases hmem : ref ∈ active
      · simp only [hmem, if_true]
      · simp only [hmem, if_false, visit_active ih, List.erase_cons_head]

/-- What the walk returns, unfolding returns. -/
theorem unfold_of_walk {levels : Nat} {ref : Ref} {active : List Ref} {value : Value}
    (h : (walk graph tooDeep cyclic levels ref active).1 = .ok value) :
    unfold graph tooDeep levels ref = .ok value := by
  induction levels generalizing ref active value with
  | zero => cases h
  | succ levels ih =>
    rw [walk] at h
    rw [unfold]
    revert h
    cases graph ref with
    | leaf result => exact fun h => h
    | container members build =>
      by_cases hmem : ref ∈ active
      · simp only [hmem, if_true]
        intro h
        cases h
      · simp only [hmem, if_false]
        intro h
        cases hvisit : (visit (walk graph tooDeep cyclic levels) members (ref :: active)).1 with
        | error error =>
          rw [hvisit] at h
          cases h
        | ok values =>
          rw [hvisit] at h
          have hcollect : collect (unfold graph tooDeep levels) members = .ok values :=
            collect_of_visit (fun ref active value hfound => ih hfound) hvisit
          rw [hcollect]
          exact h

end

/-! ## Cycles -/

section

variable {graph : Ref → Node Ref Key Value Error} {tooDeep : Error}

theorem collect_ok {plain : Ref → Except Error Value} {members : List (Except Error Key × Ref)}
    {values : List (Key × Value)} (h : collect plain members = .ok values) :
    ∀ member ∈ members, (∃ key, member.1 = .ok key) ∧ ∃ value, plain member.2 = .ok value := by
  induction members generalizing values with
  | nil => simp
  | cons member members ih =>
    obtain ⟨key, ref⟩ := member
    cases key with
    | error error => cases h
    | ok key =>
      rw [collect] at h
      cases hvalue : plain ref with
      | error error =>
        rw [hvalue] at h
        cases h
      | ok value =>
        cases hrest : collect plain members with
        | error error =>
          rw [hvalue, hrest] at h
          cases h
        | ok others => exact List.forall_mem_cons.mpr ⟨⟨⟨key, rfl⟩, value, hvalue⟩, ih hrest⟩

theorem holds_iff {ref member : Ref} {members : List (Except Error Key × Ref)} {build : List (Key × Value) → Value}
    (h : graph ref = .container members build) : Holds graph ref member ↔ ∃ key, (key, member) ∈ members := by
  constructor
  · rintro ⟨members', build', hgraph, hmember⟩
    rw [h] at hgraph
    cases hgraph
    exact hmember
  · intro hmember
    exact ⟨members, build, h, hmember⟩

theorem not_holds_leaf {ref member : Ref} {result : Except Error Value} (h : graph ref = .leaf result) :
    ¬ Holds graph ref member := by
  rintro ⟨members, build, hgraph, -⟩
  rw [h] at hgraph
  cases hgraph

/-- Whatever can be unfolded has an end everywhere below it. -/
theorem acc_of_unfold {levels : Nat} {ref : Ref} {value : Value} (h : unfold graph tooDeep levels ref = .ok value) :
    Acc (fun member ref => Holds graph ref member) ref := by
  induction levels generalizing ref value with
  | zero => cases h
  | succ levels ih =>
    constructor
    rintro member ⟨members, build, hgraph, key, hmember⟩
    rw [unfold, hgraph] at h
    cases hcollect : collect (unfold graph tooDeep levels) members with
    | error error =>
      simp only [hcollect] at h
      cases h
    | ok values =>
      obtain ⟨-, found, hfound⟩ := collect_ok hcollect _ hmember
      exact ih hfound

theorem not_cyclic_of_acc {ref : Ref} (h : Acc (fun member ref => Holds graph ref member) ref) : ¬ Cyclic graph ref := by
  rintro ⟨inside, hreach, hcycle⟩
  have hinside : Acc (fun member ref => Holds graph ref member) inside := by
    clear hcycle
    induction hreach with
    | refl => exact h
    | tail _ hholds ih => exact ih.inv hholds
  have hself : Relation.TransGen (fun member ref => Holds graph ref member) inside inside :=
    Relation.transGen_swap.mp hcycle
  -- an object below itself has no end below it
  have hbelow := hinside.transGen
  clear hreach hcycle hinside
  induction hbelow with
  | intro object _ ih => exact ih object hself hself

theorem Cyclic.of_holds {ref member : Ref} (hholds : Holds graph ref member) (h : Cyclic graph member) :
    Cyclic graph ref := by
  obtain ⟨inside, hreach, hcycle⟩ := h
  exact ⟨inside, .head hholds hreach, hcycle⟩

/-- Below a finite number of objects without a cycle there is an end everywhere. -/
theorem acc_of_not_cyclic [Finite Ref] {ref : Ref} (h : ¬ Cyclic graph ref) :
    Acc (fun member ref => Holds graph ref member) ref := by
  -- the objects below `ref`, of which none is below itself
  let Below := {object : Ref // Relation.ReflTransGen (Holds graph) ref object}
  let Under : Below → Below → Prop := fun lower upper => Relation.TransGen (Holds graph) upper.1 lower.1
  have htrans : IsTrans Below Under := ⟨fun _ _ _ hfirst hsecond => hsecond.trans hfirst⟩
  have hirrefl : Std.Irrefl Under := ⟨fun object hself => h ⟨object.1, object.2, hself⟩⟩
  have hwf : WellFounded Under := Finite.wellFounded_of_trans_of_irrefl Under
  have hacc : ∀ object : Below, Acc (fun member ref => Holds graph ref member) object.1 := by
    intro object
    induction object using hwf.induction with
    | _ object ih =>
      constructor
      intro member hholds
      exact ih ⟨member, object.2.tail hholds⟩ (.single hholds)
  exact hacc ⟨ref, .refl⟩

end

section

variable [DecidableEq Ref] {graph : Ref → Node Ref Key Value Error} {tooDeep cyclic : Error}

/-- Where there is no cycle, shared objects change nothing: the walk is the unfolding, errors included. -/
theorem walk_eq_unfold {levels : Nat} {ref : Ref} {active : List Ref} (hcyclic : ¬ Cyclic graph ref)
    (hactive : ∀ object ∈ active, ¬ Relation.ReflTransGen (Holds graph) ref object) :
    walk graph tooDeep cyclic levels ref active = (unfold graph tooDeep levels ref, active) := by
  induction levels generalizing ref active with
  | zero => rfl
  | succ levels ih =>
    rw [walk, unfold]
    cases hgraph : graph ref with
    | leaf result => rfl
    | container members build =>
      have hmem : ref ∉ active := fun hmem => hactive ref hmem .refl
      have hvisit : visit (walk graph tooDeep cyclic levels) members (ref :: active) =
          (collect (unfold graph tooDeep levels) members, ref :: active) := by
        apply visit_eq_collect
        intro member hmember
        have hholds : Holds graph ref member.2 := ⟨members, build, hgraph, member.1, hmember⟩
        apply ih fun h => hcyclic (h.of_holds hholds)
        intro object hobject hreach
        rcases List.mem_cons.mp hobject with rfl | hobject
        · exact hcyclic ⟨object, .refl, .head' hholds hreach⟩
        · exact hactive object hobject (.head hholds hreach)
      simp only [hmem, if_false, hvisit, List.erase_cons_head]

end

end ObjectGraph
