import SigilExpr.Core
import SigilExpr.Text.Visible

/-!
# Outlines

Texts that show how values, scopes, contexts and registries are put together, for inspection. Every
part stands under its name, and strings are written with every character visible.
-/

namespace SigilExpr

/-! ### Layout -/

/-- Texts with commas between them. -/
def Outline.commas (texts : List String) : String :=
  ", ".intercalate texts

/-- Texts in square brackets. -/
def Outline.list (texts : List String) : String :=
  "[" ++ commas texts ++ "]"

/-- Texts under keys, in curly brackets. -/
def Outline.map (entries : List (String × String)) : String :=
  "\x7b" ++ commas (entries.map fun (key, text) => Text.visible key ++ ": " ++ text) ++ "\x7d"

/-- A record: its name and its parts under theirs. -/
def Outline.record (name : String) (parts : List (String × String)) : String :=
  name ++ " \x7b " ++ commas (parts.map fun (part, text) => part ++ ": " ++ text) ++ " \x7d"

/-! ### Values -/

mutual

/-- The outline of a value. -/
def Json.outline : Json → String
  | .null => "Null"
  | .bool true => "Bool(true)"
  | .bool false => "Bool(false)"
  | .num n => "Number(" ++ n.text ++ ")"
  | .str s => "String(" ++ Text.visible s ++ ")"
  | .arr items => "Array " ++ Outline.list (Json.outlineItems items)
  | .obj fields => "Object " ++ Outline.map (Json.outlineFields fields)

/-- The outlines of items. -/
def Json.outlineItems : List Json → List String
  | [] => []
  | v :: rest => v.outline :: Json.outlineItems rest

/-- The outlines of fields. -/
def Json.outlineFields : List (String × Json) → List (String × String)
  | [] => []
  | (key, v) :: rest => (key, v.outline) :: Json.outlineFields rest

end

/-! ### Scopes, contexts, registries -/

/-- The outline of a frame and the frames around it. -/
def Scope.outlineIn (frame : Frame) (enclosing : List Frame) : String :=
  let parent :=
    match enclosing with
    | [] => "None"
    | outer :: more => "Some(" ++ outlineIn outer more ++ ")"
  Outline.record "Scope"
    [("value", frame.value.outline), ("parent", parent),
      ("bindings", Outline.map (Json.outlineFields frame.bindings))]

/-- The outline of a scope. -/
def Scope.outline (scope : Scope) : String :=
  outlineIn scope.current scope.enclosing

/-- The outline of a context: the number of interpreters, and the scope. -/
def Context.outline (ctx : Context) : String :=
  Outline.record "Context"
    [("interpreters", Nat.repr ctx.directory.ids.length), ("scope", ctx.scope.outline)]

/-- The outline of a registry: the identifiers, and the runtime mode. -/
def Registry.outline (registry : Registry) : String :=
  Outline.record "Registry"
    [("interpreters", Outline.list (registry.ids.map Text.visible)),
      ("runtime_mode", registry.runtimeMode.title)]

end SigilExpr
