import SigilExpr.Core

/-!
# Sessions

The state of an interactive session: builders and registries under names of their own, the registry
that is in use, and the scope that expressions are evaluated in. The scope is the stack of the
session: pushing enters a child scope, popping leaves the innermost scope unless it is the only one.

Registries never change, so building again under a name leaves alone whoever uses the earlier
registry.
-/

namespace SigilExpr

/-- The state of a session. -/
structure Session where
  /-- The builders under their names. -/
  builders : Fields Builder
  /-- The registries under their names. -/
  registries : Fields Registry
  /-- The registry in use. -/
  registry : Registry
  /-- The scope in use. -/
  scope : Scope

namespace Session

/-- The registry of the core interpreters. -/
def coreRegistry : Registry :=
  ((Core.builder .production).build.toOption).getD ⟨[], .production⟩

/-- A session without builders and registries of its own, about null. -/
def start : Session := ⟨[], [], coreRegistry, .root .null⟩

/-- The builder with this name. -/
def builder? (session : Session) (name : String) : Option Builder :=
  Fields.get? name session.builders

/-- Puts a builder under a name. -/
def putBuilder (session : Session) (name : String) (builder : Builder) : Session :=
  { session with builders := Fields.insert name builder session.builders }

/-- The registry with this name. -/
def registry? (session : Session) (name : String) : Option Registry :=
  Fields.get? name session.registries

/-- Puts a registry under a name. -/
def putRegistry (session : Session) (name : String) (registry : Registry) : Session :=
  { session with registries := Fields.insert name registry session.registries }

/-- Puts a registry into use, with a single scope about a value. -/
def use (session : Session) (registry : Registry) (value : Json) : Session :=
  { session with registry := registry, scope := .root value }

/-- Enters a child scope. -/
def push (session : Session) (value : Json) (bindings : Fields Json) : Session :=
  { session with scope := session.scope.child value bindings }

/-- Leaves the innermost scope, unless it is the only one. -/
def pop (session : Session) : Session :=
  match session.scope.enclosing with
  | [] => session
  | outer :: more => { session with scope := ⟨outer, more⟩ }

/-- The number of scopes. -/
def height (session : Session) : Nat :=
  session.scope.enclosing.length + 1

/-- The context that expressions are evaluated in. -/
def context (session : Session) : Context :=
  session.registry.context session.scope

/-- Leaving a scope that was just entered leads back. -/
theorem pop_push (session : Session) (value : Json) (bindings : Fields Json) :
    (session.push value bindings).pop = session := rfl

end Session

end SigilExpr
