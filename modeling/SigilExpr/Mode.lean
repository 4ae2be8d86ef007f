import SigilExpr.Text.Blank

/-!
# Modes

An evaluation runs in one of two modes: step by step on the spot, or with siblings side by side in
time. A registry works in one of two runtime modes, of which the one for development adds warnings.
-/

namespace SigilExpr

/-- How an evaluation runs. -/
inductive Mode where
  /-- One step after the other. -/
  | sync
  /-- Siblings side by side. -/
  | async
deriving DecidableEq, Repr

namespace Mode

/-- The name of a mode. -/
def name : Mode → String
  | sync => "sync"
  | async => "async"

/-- The mode with this name. -/
def ofName? (name : String) : Option Mode :=
  [sync, async].find? fun mode => mode.name == name

end Mode

/-- What a registry is for. -/
inductive RuntimeMode where
  /-- Evaluation without remarks. -/
  | production
  /-- Evaluation with warnings about what looks like a mistake. -/
  | development
deriving DecidableEq, Repr

namespace RuntimeMode

/-- The name of a runtime mode. -/
def name : RuntimeMode → String
  | production => "production"
  | development => "development"

/-- The name of a runtime mode with a capital. -/
def title : RuntimeMode → String
  | production => "Production"
  | development => "Development"

/-- The runtime mode with exactly this name. -/
def ofName? (name : String) : Option RuntimeMode :=
  [production, development].find? fun mode => mode.name == name

/-- The runtime mode that a text names, in full or in short, with any blanks around it and in any
case. -/
def parse? (text : String) : Option RuntimeMode :=
  let name := Text.lowerAscii (Text.trim text)
  if name = "production" || name = "prod" then some production
  else if name = "development" || name = "dev" then some development
  else none

/-- Whether warnings are given. -/
def diagnostics : RuntimeMode → Bool
  | production => false
  | development => true

/-- The runtime mode where none is chosen. -/
def standard : RuntimeMode := development

/-- The runtime mode that a setting chooses: what it names, or the standard one. -/
def ofSetting (setting : Option String) : RuntimeMode :=
  (setting.bind parse?).getD standard

end RuntimeMode

end SigilExpr
