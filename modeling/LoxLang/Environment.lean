import LoxLang.Value

/-!
# Environments

Scopes live in one array, and each but the first is linked to the scope around it. The
first scope is the global one and is never given up. Names are looked up along the links
from the innermost scope, where declarations land.
-/

namespace LoxLang

structure Scope where
  bindings : List (String × Value)
  enclosing : Option Nat

namespace Scope

def get? (scope : Scope) (name : String) : Option Value := scope.bindings.lookup name

def binds (scope : Scope) (name : String) : Bool := (scope.get? name).isSome

/-- Sets the value of a name in a list of bindings, in place if it is bound there. -/
def update (name : String) (value : Value) : List (String × Value) → List (String × Value)
  | [] => [(name, value)]
  | (other, old) :: rest =>
    if other = name then (name, value) :: rest else (other, old) :: update name value rest

def set (scope : Scope) (name : String) (value : Value) : Scope :=
  { scope with bindings := update name value scope.bindings }

end Scope

structure Environment where
  scopes : Array Scope

namespace Environment

/-- The environment with nothing but an empty global scope. -/
def globals : Environment := ⟨#[⟨[], none⟩]⟩

/-- The number of scopes. -/
def depth (env : Environment) : Nat := env.scopes.size

/-- The index of the innermost scope. -/
def current (env : Environment) : Nat := env.scopes.size - 1

/-- Opens an empty scope inside the innermost one. -/
def push (env : Environment) : Environment :=
  ⟨env.scopes.push ⟨[], some env.current⟩⟩

/-- Closes the innermost scope, unless it is the global one. -/
def pop (env : Environment) : Environment :=
  if 1 < env.depth then ⟨env.scopes.pop⟩ else env

/-- Binds a name in the innermost scope, in place of any binding that it has there. -/
def define (env : Environment) (name : String) (value : Value) : Environment :=
  ⟨env.scopes.modify env.current (·.set name value)⟩

/-- Follows the links from the given scope to one that binds the name. At most `bound`
scopes are visited. -/
def search (env : Environment) (name : String) : Nat → Option Nat → Option Nat
  | bound + 1, some index =>
    match env.scopes[index]? with
    | none => none
    | some scope => if scope.binds name then some index else search env name bound scope.enclosing
  | _, _ => none

/-- The innermost scope that binds the name. -/
def owner? (env : Environment) (name : String) : Option Nat :=
  env.search name env.depth (some env.current)

def get? (env : Environment) (name : String) : Option Value := do
  let index ← env.owner? name
  let scope ← env.scopes[index]?
  scope.get? name

/-- Sets the innermost binding of a name. Nothing is declared if there is none. -/
def assign? (env : Environment) (name : String) (value : Value) : Option Environment :=
  (env.owner? name).map fun index => ⟨env.scopes.modify index (·.set name value)⟩

end Environment

end LoxLang
