import Marginalia.Timing.Debounce
import Marginalia.View.Gutter

/-!
# Settings of the engine

What a host can set: the quiet period before an evaluation, what the text, the tooltip and the
gutter show, and the colours.
-/

namespace Marginalia

/-- The settings of an engine. -/
structure Engine.Options where
  /-- The quiet period before an evaluation, in milliseconds. -/
  delay : Nat
  /-- Narrows the reports that are drawn in the text. -/
  markerFilter : Option Filter
  /-- Narrows the reports that the hover tooltip lists. -/
  tooltipFilter : Option Filter
  gutter : Gutter.Options
  theme : Theme

namespace Engine.Options

/-- The settings used unless the host gives others. -/
def standard : Options := ⟨Debounce.standardDelay, none, none, .standard, .standard⟩

end Engine.Options

end Marginalia
