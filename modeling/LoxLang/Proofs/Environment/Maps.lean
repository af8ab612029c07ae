import LoxLang.Proofs.Environment.Stack
import LoxLang.Proofs.Run.Frame
import Mathlib.Data.Finmap
import Mathlib.Data.List.Forall2

/-!
# Environments as stacks of finite maps

What an environment answers is what a stack of finite maps answers: a scope is a map from names to
values, a name has the value of the first map that binds it, and to assign is to overwrite that
value in that map. The two are compared on whole sequences of operations, each of which gives an
answer and a depth.

The arrangement of the scopes is what makes the search for a name sound. Every scope but the
global one is linked to the one before it, whatever operations are performed, so a walk along the
links stays inside of the array and comes to an end.
-/

namespace LoxLang

/-! ## Stacks of maps -/

/-- The bindings of one scope, without an order. -/
abbrev NameMap : Type := Finmap fun _ : String ↦ Value

/-- Maps from names to values, the innermost first. There is always one. -/
structure MapStack where
  maps : List NameMap
  nonempty : maps ≠ []

namespace MapStack

def globals : MapStack := ⟨[∅], List.cons_ne_nil _ _⟩

def depth (stack : MapStack) : Nat := stack.maps.length

def push (stack : MapStack) : MapStack := ⟨∅ :: stack.maps, List.cons_ne_nil _ _⟩

/-- Drops the innermost map, unless it is the only one. -/
def pop (stack : MapStack) : MapStack :=
  if h : stack.maps.tail ≠ [] then ⟨stack.maps.tail, h⟩ else stack

/-- Replaces one of the maps by the map with a name set to a value. -/
def setAt (stack : MapStack) (index : Nat) (name : String) (value : Value) : MapStack :=
  ⟨stack.maps.modify index (·.insert name value), by
    rw [← List.length_pos_iff, List.length_modify]
    exact List.length_pos_iff.mpr stack.nonempty⟩

def define (stack : MapStack) (name : String) (value : Value) : MapStack := stack.setAt 0 name value

/-- The value in the first map that binds the name. -/
def get? (stack : MapStack) (name : String) : Option Value :=
  stack.maps.findSome? (·.lookup name)

/-- Overwrites the value in the first map that binds the name. -/
def assign? (stack : MapStack) (name : String) (value : Value) : Option MapStack :=
  (stack.maps.findIdx? (name ∈ ·)).map fun index ↦ stack.setAt index name value

end MapStack

/-! ## Operations and their answers -/

/-- What nested scopes have to offer. -/
structure Scoping (State : Type) where
  push : State → State
  pop : State → State
  define : State → String → Value → State
  assign? : State → String → Value → Option State
  get? : State → String → Option Value
  depth : State → Nat

def Environment.scoping : Scoping Environment where
  push := push
  pop := pop
  define := define
  assign? := assign?
  get? := get?
  depth := depth

def MapStack.scoping : Scoping MapStack where
  push := push
  pop := pop
  define := define
  assign? := assign?
  get? := get?
  depth := depth

namespace Scoping

inductive Operation where
  | push
  | pop
  | define (name : String) (value : Value)
  | assign (name : String) (value : Value)
  | get (name : String)

inductive Answer where
  | done
  | assigned (success : Bool)
  | found (value : Option Value)

variable {State Other : Type}

/-- Performs an operation. An assignment that fails leaves the state as it is. -/
def perform (scoping : Scoping State) (state : State) : Operation → Answer × State
  | .push => (.done, scoping.push state)
  | .pop => (.done, scoping.pop state)
  | .define name value => (.done, scoping.define state name value)
  | .assign name value =>
    match scoping.assign? state name value with
    | some next => (.assigned true, next)
    | none => (.assigned false, state)
  | .get name => (.found (scoping.get? state name), state)

/-- The answers to a sequence of operations, each with the depth behind it, and the last state. -/
def run (scoping : Scoping State) : List Operation → State → List (Answer × Nat) × State
  | [], state => ([], state)
  | operation :: rest, state =>
    let (answer, next) := scoping.perform state operation
    let (answers, last) := scoping.run rest next
    ((answer, scoping.depth next) :: answers, last)

/-- A relation between the states of two scopings that tells them apart in nothing that can be
asked, and that the operations keep. -/
structure Bisimulation (first : Scoping State) (second : Scoping Other)
    (related : State → Other → Prop) : Prop where
  push : ∀ {state other}, related state other → related (first.push state) (second.push other)
  pop : ∀ {state other}, related state other → related (first.pop state) (second.pop other)
  define : ∀ {state other}, related state other → ∀ name value,
    related (first.define state name value) (second.define other name value)
  assign? : ∀ {state other}, related state other → ∀ name value,
    Option.Rel related (first.assign? state name value) (second.assign? other name value)
  get? : ∀ {state other}, related state other → ∀ name,
    first.get? state name = second.get? other name
  depth : ∀ {state other}, related state other → first.depth state = second.depth other

namespace Bisimulation

variable {first : Scoping State} {second : Scoping Other} {related : State → Other → Prop}
  {state : State} {other : Other}

theorem perform (h : Bisimulation first second related) (hstate : related state other)
    (operation : Operation) :
    (first.perform state operation).1 = (second.perform other operation).1 ∧
      related (first.perform state operation).2 (second.perform other operation).2 := by
  cases operation with
  | push => exact ⟨rfl, h.push hstate⟩
  | pop => exact ⟨rfl, h.pop hstate⟩
  | define name value => exact ⟨rfl, h.define hstate name value⟩
  | assign name value =>
    have hassign := h.assign? hstate name value
    simp only [Scoping.perform]
    generalize first.assign? state name value = assigned at hassign ⊢
    generalize second.assign? other name value = otherAssigned at hassign ⊢
    cases hassign with
    | none => exact ⟨rfl, hstate⟩
    | some hnext => exact ⟨rfl, hnext⟩
  | get name => exact ⟨congrArg Answer.found (h.get? hstate name), hstate⟩

theorem run (h : Bisimulation first second related) (hstate : related state other)
    (operations : List Operation) :
    (first.run operations state).1 = (second.run operations other).1 ∧
      related (first.run operations state).2 (second.run operations other).2 := by
  induction operations generalizing state other with
  | nil => exact ⟨rfl, hstate⟩
  | cons operation rest ih =>
    obtain ⟨hanswer, hnext⟩ := h.perform hstate operation
    obtain ⟨hanswers, hlast⟩ := ih hnext
    refine ⟨?_, hlast⟩
    simp only [Scoping.run, hanswer, hanswers, h.depth hnext]

end Bisimulation

end Scoping

/-! ## Bindings as maps -/

/-- The bindings and the map give every name the same value, or none. -/
def NameMap.Agrees (bindings : List (String × Value)) (map : NameMap) : Prop :=
  ∀ name, bindings.lookup name = map.lookup name

namespace NameMap

theorem agrees_empty : Agrees [] ∅ := fun _ ↦ rfl

theorem Agrees.insert {bindings : List (String × Value)} {map : NameMap} (h : Agrees bindings map)
    (name : String) (value : Value) :
    Agrees (Scope.update name value bindings) (map.insert name value) := by
  intro other
  rw [Scope.lookup_update]
  split
  · next hother => rw [hother, Finmap.lookup_insert]
  · next hother => rw [Finmap.lookup_insert_of_ne map hother, h other]

theorem Agrees.isSome_lookup {bindings : List (String × Value)} {map : NameMap}
    (h : Agrees bindings map) (name : String) :
    (bindings.lookup name).isSome = decide (name ∈ map) := by
  rw [h name, Bool.eq_iff_iff, Finmap.lookup_isSome, decide_eq_true_eq]

variable {stack : Stack} {maps : List NameMap}

theorem findSome?_eq (h : List.Forall₂ Agrees stack maps) (name : String) :
    stack.get? name = maps.findSome? (·.lookup name) := by
  induction h with
  | nil => rfl
  | @cons bindings map rest others hagrees _ ih =>
    rw [Stack.get?, List.findSome?_cons, ih, hagrees name]
    cases map.lookup name with
    | none => rfl
    | some value => rfl

theorem assign?_rel (h : List.Forall₂ Agrees stack maps) (name : String) (value : Value) :
    Option.Rel (List.Forall₂ Agrees) (stack.assign? name value)
      ((maps.findIdx? (name ∈ ·)).map fun index ↦ maps.modify index (·.insert name value)) := by
  induction h with
  | nil => exact .none
  | @cons bindings map rest others hagrees hrest ih =>
    rw [Stack.assign?, List.findIdx?_cons, hagrees.isSome_lookup name]
    by_cases hbound : name ∈ map
    · simp only [hbound, decide_true, if_true, Option.map_some]
      exact .some (.cons (hagrees.insert name value) hrest)
    · simp only [hbound, decide_false, Bool.false_eq_true, if_false, Option.map_map]
      generalize Stack.assign? name value rest = assigned at ih ⊢
      generalize others.findIdx? (name ∈ ·) = owner at ih ⊢
      cases owner with
      | none =>
        cases ih
        exact .none
      | some index =>
        cases ih with
        | some hassigned => exact .some (.cons hagrees hassigned)

end NameMap

namespace Environment

/-- The scopes of the environment, from the innermost to the global one, bind what the maps
bind. -/
def Represents (env : Environment) (stack : MapStack) : Prop :=
  ∃ scopes : Stack, env = ofStack scopes ∧ List.Forall₂ NameMap.Agrees scopes stack.maps

theorem represents_globals : globals.Represents .globals :=
  ⟨[[]], rfl, .cons NameMap.agrees_empty .nil⟩

namespace Represents

variable {env : Environment} {stack : MapStack}

theorem ne_nil {scopes : Stack} (h : List.Forall₂ NameMap.Agrees scopes stack.maps) :
    scopes ≠ [] := by
  rintro rfl
  exact stack.nonempty (List.forall₂_nil_left_iff.mp h)

theorem linked (h : env.Represents stack) : env.Linked := by
  obtain ⟨scopes, rfl, hscopes⟩ := h
  exact linked_ofStack (ne_nil hscopes)

theorem push (h : env.Represents stack) : env.push.Represents stack.push := by
  obtain ⟨scopes, rfl, hscopes⟩ := h
  exact ⟨[] :: scopes, push_ofStack (ne_nil hscopes), .cons NameMap.agrees_empty hscopes⟩

theorem pop (h : env.Represents stack) : env.pop.Represents stack.pop := by
  obtain ⟨scopes, rfl, hscopes⟩ := h
  obtain ⟨maps, hmaps⟩ := stack
  cases hscopes with
  | nil => exact absurd rfl hmaps
  | @cons bindings map rest others hagrees hrest =>
    cases hrest with
    | nil => exact ⟨[bindings], rfl, .cons hagrees .nil⟩
    | @cons next nextMap below outer hnext hbelow =>
      exact ⟨next :: below, pop_ofStack (List.cons_ne_nil _ _), .cons hnext hbelow⟩

theorem define (h : env.Represents stack) (name : String) (value : Value) :
    (env.define name value).Represents (stack.define name value) := by
  obtain ⟨scopes, rfl, hscopes⟩ := h
  obtain ⟨maps, hmaps⟩ := stack
  cases hscopes with
  | nil => exact absurd rfl hmaps
  | @cons bindings map rest others hagrees hrest =>
    exact ⟨_, define_ofStack bindings rest name value, .cons (hagrees.insert name value) hrest⟩

theorem assign? (h : env.Represents stack) (name : String) (value : Value) :
    Option.Rel Represents (env.assign? name value) (stack.assign? name value) := by
  obtain ⟨scopes, rfl, hscopes⟩ := h
  have hassign := NameMap.assign?_rel hscopes name value
  rw [assign?_ofStack (ne_nil hscopes), MapStack.assign?]
  generalize scopes.assign? name value = assigned at hassign ⊢
  generalize stack.maps.findIdx? (name ∈ ·) = owner at hassign ⊢
  cases owner with
  | none =>
    cases hassign
    exact .none
  | some index =>
    cases hassign with
    | some hafter => exact .some ⟨_, rfl, hafter⟩

theorem get? (h : env.Represents stack) (name : String) : env.get? name = stack.get? name := by
  obtain ⟨scopes, rfl, hscopes⟩ := h
  rw [get?_ofStack (ne_nil hscopes)]
  exact NameMap.findSome?_eq hscopes name

theorem depth (h : env.Represents stack) : env.depth = stack.depth := by
  obtain ⟨scopes, rfl, hscopes⟩ := h
  rw [Environment.depth, size_ofStack, hscopes.length_eq]
  rfl

end Represents

theorem bisimulation_represents : Scoping.Bisimulation scoping MapStack.scoping Represents where
  push := Represents.push
  pop := Represents.pop
  define := Represents.define
  assign? := Represents.assign?
  get? := Represents.get?
  depth := Represents.depth

/-! ## Walks along the links -/

/-- A walk from a scope outward along the links, through the scopes with the given indices, which
ends at the first of them that binds the name, or behind a scope that has no link. There is no
walk that leaves the array, and none that goes on forever. -/
inductive Walk (env : Environment) (name : String) : Option Nat → List Nat → Option Nat → Prop where
  | out : Walk env name none [] none
  | found {index : Nat} {scope : Scope} (inside : env.scopes[index]? = some scope)
    (binds : scope.binds name = true) : Walk env name (some index) [index] (some index)
  | onward {index : Nat} {scope : Scope} {visited : List Nat} {owner : Option Nat}
    (inside : env.scopes[index]? = some scope) (unbound : scope.binds name = false)
    (rest : Walk env name scope.enclosing visited owner) :
    Walk env name (some index) (index :: visited) owner

theorem Walk.lt_depth {env : Environment} {name : String} {start owner : Option Nat}
    {visited : List Nat} (h : Walk env name start visited owner) :
    ∀ index ∈ visited, index < env.depth := by
  induction h with
  | out => exact List.forall_mem_nil _
  | found inside =>
    exact List.forall_mem_singleton.mpr (Array.getElem?_eq_some_iff.mp inside).1
  | onward inside _ _ ih =>
    exact List.forall_mem_cons.mpr ⟨(Array.getElem?_eq_some_iff.mp inside).1, ih⟩

theorem exists_walk_ofStack (upper lower : Stack) (name : String) :
    ∃ visited, Walk (ofStack (upper ++ lower)) name (linkAt lower.length) visited
      (lower.owner? name) := by
  induction lower generalizing upper with
  | nil => exact ⟨[], .out⟩
  | cons bindings rest ih =>
    have hscope := scope_ofStack upper bindings rest
    rw [Stack.owner?]
    by_cases hbinds : (bindings.lookup name).isSome
    · rw [if_pos hbinds]
      exact ⟨[rest.length], .found hscope hbinds⟩
    · rw [if_neg hbinds]
      obtain ⟨visited, hvisited⟩ := ih (upper ++ [bindings])
      rw [List.append_assoc, List.singleton_append] at hvisited
      exact ⟨rest.length :: visited, .onward hscope (Bool.eq_false_iff.mpr hbinds) hvisited⟩

/-- The search for a name is such a walk. -/
theorem Linked.exists_walk {env : Environment} (h : env.Linked) (name : String) :
    ∃ visited, Walk env name (some env.current) visited (env.owner? name) := by
  obtain ⟨stack, hne, rfl⟩ := h.exists_stack
  obtain ⟨visited, hvisited⟩ := exists_walk_ofStack [] stack name
  rw [List.nil_append] at hvisited
  rw [owner?_ofStack hne, current, size_ofStack]
  obtain ⟨bindings, rest, rfl⟩ := List.exists_cons_of_ne_nil hne
  exact ⟨visited, hvisited⟩

/-- Whatever operations are performed on the environment of the globals, it answers them as a
stack of finite maps does. There is a global scope then, which has no link, and every other scope
is linked to the one before it, so the search for a name ends without leaving the array. -/
theorem refines_mapStack (operations : List Scoping.Operation) :
    (scoping.run operations globals).1 = (MapStack.scoping.run operations .globals).1 ∧
      let env := (scoping.run operations globals).2
      0 < env.depth ∧
      (∀ scope, env.scopes[0]? = some scope → scope.enclosing = none) ∧
      (∀ index scope, env.scopes[index + 1]? = some scope → scope.enclosing = some index) ∧
      ∀ name, ∃ visited, Walk env name (some env.current) visited (env.owner? name) ∧
        ∀ index ∈ visited, index < env.depth := by
  obtain ⟨hanswers, hlast⟩ := bisimulation_represents.run represents_globals operations
  have hlinked := hlast.linked
  refine ⟨hanswers, hlinked.depth_pos, hlinked.link 0, fun index ↦ hlinked.link (index + 1),
    fun name ↦ ?_⟩
  obtain ⟨visited, hvisited⟩ := hlinked.exists_walk name
  exact ⟨visited, hvisited, hvisited.lt_depth⟩

end Environment

end LoxLang
