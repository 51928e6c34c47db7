import Marginalia.Text.Fold
/-!
# Where diagram markup starts

A line starts a diagram when it begins with one of the keywords that open a diagram,
in any case, or with `%%`, which opens a directive or a comment of the markup.  Only the
beginning of the line matters: `graphics` starts a diagram as `graph` does.
-/
namespace Marginalia

namespace Diagram

def keywords : List Text :=
  ["graph", "flowchart", "sequenceDiagram", "stateDiagram", "classDiagram", "erDiagram",
    "gantt", "pie", "gitgraph", "journey", "requirement",
    "C4Context", "C4Container", "C4Component", "C4Dynamic", "C4Deployment",
    "mindmap", "timeline", "sankey-beta", "quadrantChart",
    "xychart-beta", "block-beta", "packet-beta", "architecture-beta", "%%"].map String.toList

def isStart (line : Text) : Bool := keywords.any fun word => Text.beginsWithWord word line

end Diagram

end Marginalia
