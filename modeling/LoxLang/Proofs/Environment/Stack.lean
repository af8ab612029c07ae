import LoxLang.Environment

/-!
# Environments as stacks

The scopes of an environment are linked each to the one before it, so the array with its links
is but a stack of lists of bindings. Here the innermost list comes first. Every operation on an
environment is the operation of the same name on the stack, and keeps the links as they are.
-/

namespace LoxLang

/-- Lists of bindings, the innermost first. -/
abbrev Stack : Type := List (List (String × Value))

namespace Stack

/-- The position, counted from the outermost scope, of the innermost one that binds the name. -/
def owner? (name : String) : Stack → Option Nat
  | [] => none
  | scope :: rest => if (scope.lookup name).isSome then some rest.length else owner? name rest

/-- The innermost value of a name. -/
def get? (name : String) : Stack → Option Value
  | [] => none
  | scope :: rest => (scope.lookup name).or (get? name rest)

/-- Sets the innermost binding of a name. -/
def assign? (name : String) (value : Value) : Stack → Option Stack
  | [] => none
  | scope :: rest =>
    if (scope.lookup name).isSome then some (Scope.update name value scope :: rest)
    else (assign? name value rest).map (scope :: ·)

theorem assign?_ne_nil {name : String} {value : Value} {stack after : Stack}
    (h : stack.assign? name value = some after) : after ≠ [] := by
  cases stack with
  | nil => cases h
  | cons scope rest =>
    rw [assign?] at h
    split at h
    · cases h
      exact List.cons_ne_nil _ _
    · obtain ⟨below, -, rfl⟩ := Option.map_eq_some_iff.mp h
      exact List.cons_ne_nil _ _

end Stack

namespace Environment

/-- The scope to which the one with the given index is linked. -/
def linkAt : Nat → Option Nat
  | 0 => none
  | index + 1 => some index

def ofStack : Stack → Environment
  | [] => ⟨#[]⟩
  | scope :: rest => ⟨(ofStack rest).scopes.push ⟨scope, linkAt rest.length⟩⟩

/-- There is a global scope, and every other scope is linked to the one before it. -/
structure Linked (env : Environment) : Prop where
  depth_pos : 0 < env.depth
  link : ∀ index scope, env.scopes[index]? = some scope → scope.enclosing = linkAt index

@[simp]
theorem size_ofStack (stack : Stack) : (ofStack stack).scopes.size = stack.length := by
  induction stack with
  | nil => rfl
  | cons scope rest ih => rw [ofStack, Array.size_push, ih, List.length_cons]

theorem getElem?_ofStack (stack : Stack) (index : Nat) :
    (ofStack stack).scopes[index]? =
      stack.reverse[index]?.map fun scope ↦ ⟨scope, linkAt index⟩ := by
  induction stack with
  | nil => rfl
  | cons scope rest ih =>
    rw [ofStack, Array.getElem?_push, size_ofStack, ih, List.reverse_cons]
    by_cases hlast : index = rest.length
    · subst hlast
      rw [if_pos rfl, List.getElem?_append_right (by simp)]
      simp
    · rw [if_neg hlast]
      by_cases hlt : index < rest.length
      · rw [List.getElem?_append_left (by simpa using hlt)]
      · rw [List.getElem?_eq_none (by simp; omega), List.getElem?_eq_none (by simp; omega)]

theorem ext_scopes {env other : Environment}
    (h : ∀ index : Nat, env.scopes[index]? = other.scopes[index]?) : env = other :=
  congrArg Environment.mk (Array.ext_getElem? h)

theorem linked_ofStack {stack : Stack} (h : stack ≠ []) : (ofStack stack).Linked := by
  constructor
  · rw [depth, size_ofStack]
    exact List.length_pos_iff.mpr h
  · intro index scope hscope
    rw [getElem?_ofStack] at hscope
    obtain ⟨bindings, -, rfl⟩ := Option.map_eq_some_iff.mp hscope
    rfl

/-- A linked environment is nothing but a stack. -/
theorem Linked.exists_stack {env : Environment} (h : env.Linked) :
    ∃ stack, stack ≠ [] ∧ env = ofStack stack := by
  refine ⟨(env.scopes.toList.map Scope.bindings).reverse, ?_, ext_scopes fun index ↦ ?_⟩
  · intro hnil
    have hpos : 0 < env.scopes.size := h.depth_pos
    have hlength := congrArg List.length hnil
    simp at hlength
    simp [hlength] at hpos
  · rw [getElem?_ofStack, List.reverse_reverse, List.getElem?_map, Option.map_map]
    rw [Array.getElem?_toList]
    cases hscope : env.scopes[index]? with
    | none => rfl
    | some scope =>
      rw [Option.map_some, Function.comp_apply, ← h.link index scope hscope]

theorem linked_globals : globals.Linked :=
  linked_ofStack (List.cons_ne_nil [] [])

/-! ## Operations -/

theorem push_ofStack {stack : Stack} (h : stack ≠ []) :
    (ofStack stack).push = ofStack ([] :: stack) := by
  obtain ⟨scope, rest, rfl⟩ := List.exists_cons_of_ne_nil h
  rw [push, current, size_ofStack]
  rfl

theorem pop_ofStack {scope : List (String × Value)} {rest : Stack} (h : rest ≠ []) :
    (ofStack (scope :: rest)).pop = ofStack rest := by
  have hdepth : 1 < (ofStack (scope :: rest)).depth := by
    have hrest := List.length_pos_iff.mpr h
    rw [depth, size_ofStack, List.length_cons]
    omega
  rw [pop, if_pos hdepth, ofStack, Array.pop_push]

/-- Setting a name in the scope that has the given scopes inside of it. -/
theorem modify_ofStack (upper : Stack) (scope : List (String × Value)) (rest : Stack)
    (name : String) (value : Value) :
    ⟨(ofStack (upper ++ scope :: rest)).scopes.modify rest.length (·.set name value)⟩ =
      ofStack (upper ++ Scope.update name value scope :: rest) := by
  apply ext_scopes
  intro index
  rw [Array.getElem?_modify, getElem?_ofStack, getElem?_ofStack]
  have hsplit (middle : List (String × Value)) :
      (upper ++ middle :: rest).reverse = rest.reverse ++ middle :: upper.reverse := by simp
  rw [hsplit, hsplit]
  by_cases hindex : rest.length = index
  · subst hindex
    rw [if_pos rfl, List.getElem?_append_right (by simp), List.getElem?_append_right (by simp)]
    simp [Scope.set]
  · rw [if_neg hindex]
    congr 1
    by_cases hlt : index < rest.length
    · rw [List.getElem?_append_left (by simpa using hlt),
        List.getElem?_append_left (by simpa using hlt)]
    · rw [List.getElem?_append_right (by simp; omega), List.getElem?_append_right (by simp; omega)]
      obtain ⟨place, hplace⟩ : ∃ place, index - rest.reverse.length = place + 1 :=
        ⟨index - rest.length - 1, by simp; omega⟩
      rw [hplace, List.getElem?_cons_succ, List.getElem?_cons_succ]

theorem define_ofStack (scope : List (String × Value)) (rest : Stack) (name : String)
    (value : Value) :
    (ofStack (scope :: rest)).define name value =
      ofStack (Scope.update name value scope :: rest) := by
  rw [define, current, size_ofStack]
  exact modify_ofStack [] scope rest name value

theorem scope_ofStack (upper : Stack) (scope : List (String × Value)) (rest : Stack) :
    (ofStack (upper ++ scope :: rest)).scopes[rest.length]? =
      some ⟨scope, linkAt rest.length⟩ := by
  rw [getElem?_ofStack]
  simp

/-- Following the links is going down the stack. -/
theorem search_ofStack (upper lower : Stack) (name : String) :
    (ofStack (upper ++ lower)).search name lower.length (linkAt lower.length) =
      lower.owner? name := by
  induction lower generalizing upper with
  | nil => rfl
  | cons scope rest ih =>
    rw [List.length_cons, linkAt, search, scope_ofStack, Stack.owner?]
    have hbelow := ih (upper ++ [scope])
    rw [List.append_assoc, List.singleton_append] at hbelow
    rw [← hbelow]
    rfl

theorem owner?_ofStack {stack : Stack} (h : stack ≠ []) (name : String) :
    (ofStack stack).owner? name = stack.owner? name := by
  rw [← search_ofStack [] stack name, owner?, depth, current, size_ofStack]
  obtain ⟨scope, rest, rfl⟩ := List.exists_cons_of_ne_nil h
  rfl

theorem get?_ofStack {stack : Stack} (h : stack ≠ []) (name : String) :
    (ofStack stack).get? name = stack.get? name := by
  have hlower (upper lower : Stack) : (do
      let index ← lower.owner? name
      let scope ← (ofStack (upper ++ lower)).scopes[index]?
      scope.get? name) = lower.get? name := by
    induction lower generalizing upper with
    | nil => rfl
    | cons scope rest ih =>
      rw [Stack.owner?, Stack.get?]
      cases hlookup : scope.lookup name with
      | some value =>
        simp only [Option.isSome_some, if_true, Option.some_or]
        rw [Option.bind_eq_bind, Option.bind_some, scope_ofStack]
        exact hlookup
      | none =>
        have hbelow := ih (upper ++ [scope])
        rw [List.append_assoc, List.singleton_append] at hbelow
        exact hbelow
  rw [get?, owner?_ofStack h]
  exact hlower [] stack

theorem assign?_ofStack {stack : Stack} (h : stack ≠ []) (name : String) (value : Value) :
    (ofStack stack).assign? name value = (stack.assign? name value).map ofStack := by
  have hlower (upper lower : Stack) :
      (lower.owner? name).map (fun index ↦ (⟨(ofStack (upper ++ lower)).scopes.modify index
        (·.set name value)⟩ : Environment)) =
      (lower.assign? name value).map fun after ↦ ofStack (upper ++ after) := by
    induction lower generalizing upper with
    | nil => rfl
    | cons scope rest ih =>
      rw [Stack.owner?, Stack.assign?]
      split
      · rw [Option.map_some, Option.map_some, modify_ofStack]
      · have hbelow := ih (upper ++ [scope])
        simp only [List.append_assoc, List.singleton_append] at hbelow
        rw [hbelow, Option.map_map]
        rfl
  rw [assign?, owner?_ofStack h]
  exact hlower [] stack

/-! ## The links are kept -/

namespace Linked

variable {env : Environment}

theorem push (h : env.Linked) : env.push.Linked := by
  obtain ⟨stack, hne, rfl⟩ := h.exists_stack
  rw [push_ofStack hne]
  exact linked_ofStack (List.cons_ne_nil _ _)

theorem pop (h : env.Linked) : env.pop.Linked := by
  obtain ⟨stack, hne, rfl⟩ := h.exists_stack
  obtain ⟨scope, rest, rfl⟩ := List.exists_cons_of_ne_nil hne
  cases rest with
  | nil =>
    rw [Environment.pop, depth, size_ofStack, if_neg (by simp)]
    exact h
  | cons next below =>
    rw [pop_ofStack (List.cons_ne_nil _ _)]
    exact linked_ofStack (List.cons_ne_nil _ _)

theorem define (h : env.Linked) (name : String) (value : Value) :
    (env.define name value).Linked := by
  obtain ⟨stack, hne, rfl⟩ := h.exists_stack
  obtain ⟨scope, rest, rfl⟩ := List.exists_cons_of_ne_nil hne
  rw [define_ofStack]
  exact linked_ofStack (List.cons_ne_nil _ _)

theorem assign? {after : Environment} {name : String} {value : Value} (h : env.Linked)
    (hassign : env.assign? name value = some after) : after.Linked := by
  obtain ⟨stack, hne, rfl⟩ := h.exists_stack
  rw [assign?_ofStack hne] at hassign
  obtain ⟨assigned, hassigned, rfl⟩ := Option.map_eq_some_iff.mp hassign
  exact linked_ofStack (Stack.assign?_ne_nil hassigned)

end Linked

end Environment

end LoxLang
