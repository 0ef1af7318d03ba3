import Misfit.Options.Read

/-!
# Log styles

How log lines are laid out. A style that is not known is plain text.
-/
namespace Misfit

/-- The layout of log lines. -/
inductive LogStyle
  | text
  /-- Indented by depth. -/
  | tree
  /-- One JSON object for each event. -/
  | json
  deriving DecidableEq, Repr

namespace LogStyle

/-- The style that a word names. -/
def ofWord (word : String) : LogStyle :=
  if foldWord word = "tree" then tree else if foldWord word = "json" then json else text

/-- The name under which a style is reported. -/
def name : LogStyle → String
  | text => "Text"
  | tree => "Tree"
  | json => "Json"

end LogStyle

end Misfit
