import Marginalia.Decimal.Single
import Marginalia.Describe.Record
import Marginalia.Engine.Options

/-!
# Descriptions of settings

Settings are described field by field; of a filter only whether it is set.
-/

namespace Marginalia

/-- The description of a theme. -/
def Theme.describe (t : Theme) : String :=
  Describe.record "DiagnosticTheme"
    [("error", Describe.text t.error), ("warning", Describe.text t.warning),
      ("info", Describe.text t.info), ("hint", Describe.text t.hint),
      ("active_background", Describe.text t.active)]

/-- The description of the settings of the gutter. -/
def Gutter.Options.describe (o : Gutter.Options) : String :=
  Describe.record "GutterOptions"
    [("hover_time", Describe.duration o.hoverTime),
      ("hover_margin", Decimal.ofSingle o.hoverMargin),
      ("marker_filter", Describe.flag o.markerFilter.isSome),
      ("tooltip_filter", Describe.flag o.popupFilter.isSome)]

/-- The description of the settings of an engine. -/
def Engine.Options.describe (o : Engine.Options) : String :=
  Describe.record "DiagnosticsOptions"
    [("eval_delay", Describe.duration o.delay),
      ("marker_filter", Describe.flag o.markerFilter.isSome),
      ("tooltip_filter", Describe.flag o.tooltipFilter.isSome),
      ("gutter", o.gutter.describe), ("theme", o.theme.describe)]

end Marginalia
