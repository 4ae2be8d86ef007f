import SigilExpr.Error
import SigilExpr.Text.Visible

/-!
# Lists of type specs

Reading a whole list of specs from one JSON value. A value that is no array is refused with a
description of what it is instead; otherwise the first spec with a flaw decides.
-/

namespace SigilExpr.TypeSpec

/-- What a value is, in words. -/
def describe : Json → String
  | .null => "null"
  | .bool true => "boolean `true`"
  | .bool false => "boolean `false`"
  | .num (.whole value fits) => "integer `" ++ (Number.whole value fits).text ++ "`"
  | .num (.float x) => "floating point `" ++ (Number.float x).text ++ "`"
  | .str s => "string " ++ Text.visible s
  | .arr _ => "sequence"
  | .obj _ => "map"

/-- The specs that the items of an array describe, or the reason why there are none. -/
def readAll : Json → Except String (List TypeSpec)
  | .arr forms => (forms.mapM TypeSpec.read).mapError EvalError.display
  | v => .error ("invalid type: " ++ describe v ++ ", expected a sequence")

end SigilExpr.TypeSpec
