import Marginalia.Report.Basic

/-!
# Themes

The colours that views are drawn in, one per severity and one behind the selected report.
-/

namespace Marginalia

/-- Colours, as written in style sheets. -/
structure Theme where
  error : String
  warning : String
  info : String
  hint : String
  active : String
  deriving DecidableEq, Repr

namespace Theme

/-- The colours used unless the host gives others. -/
def standard : Theme := ⟨"#d11", "orange", "#999", "#66d", "#ffdd9980"⟩

/-- The colour of a severity. -/
def color (t : Theme) : Severity → String
  | .error => t.error
  | .warning => t.warning
  | .info => t.info
  | .hint => t.hint

end Theme

end Marginalia
