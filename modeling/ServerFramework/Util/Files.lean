import ServerFramework.Util.Rm

/-! # Moving files

`Mv` removes what is at the target before it renames, so that a move onto itself, above itself or
of nothing loses files.
-/

namespace ServerFramework

namespace FileSystem

/-- A path without dot entries. -/
def Plain (path : Path) : Prop := ∀ n ∈ path, n ≠ "." ∧ n ≠ ".."

instance (path : Path) : Decidable (Plain path) := inferInstanceAs (Decidable (∀ _, _))

section Move

variable {fs : FileSystem} {path src dst : Path}

end Move

end FileSystem

end ServerFramework
