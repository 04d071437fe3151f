import TreeImage.Extract.Options

set_option autoImplicit false

/-! # Which entries a run deals with

A filter chooses entries; the directories that lead to a chosen entry are always kept, so that what is
selected can be extracted. -/

namespace TreeImage

/-- The parent of a path, its parent, and so on, for at most `fuel` steps. -/
def ancestorsUpTo : Nat → String → List String
  | 0, _ => []
  | fuel + 1, path =>
    match parentPath? path with
    | none => []
    | some parent => parent :: ancestorsUpTo fuel parent

/-- All proper ancestors of a path, nearest first. -/
def ancestorPaths (path : String) : List String := ancestorsUpTo path.length path

/-- Keep the ancestors of a path, nearest first, up to one that is kept already: what leads to that one was kept with
    it. -/
def keepAbove (kept : List String) : List String → List String
  | [] => kept
  | front :: above => if kept.contains front then kept else keepAbove (front :: kept) above

/-- Keep the path of an entry and everything that leads to it. -/
def keepEntry (kept : List String) (e : Entry) : List String :=
  keepAbove (e.path :: kept) (ancestorPaths e.path)

namespace Manifest

/-- The paths of the accepted entries and of everything that leads to them. -/
def keptPaths (m : Manifest) (accepts : Entry → Bool) : List String :=
  (m.entries.filter accepts).foldl keepEntry []

/-- The entries to extract, in manifest order. -/
def select (m : Manifest) : Option (Entry → Bool) → List Entry
  | none => m.entries
  | some accepts =>
    let kept := m.keptPaths accepts
    m.entries.filter fun e => kept.contains e.path

theorem select_sublist (m : Manifest) (filter : Option (Entry → Bool)) :
    (m.select filter).Sublist m.entries := by
  cases filter with
  | none => exact List.Sublist.refl _
  | some accepts => exact List.filter_sublist

end Manifest

end TreeImage
