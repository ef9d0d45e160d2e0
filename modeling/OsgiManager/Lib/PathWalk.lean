import OsgiManager.Lib.Bytes

namespace OsgiManager.Lib

/-!
# Walking a path

The components of a path, walked one after the other from a root directory.  The position of
the walk is the list of the directories entered below the root, the innermost first, and the
walk fails at the moment it would go up from the root.

* `walk` — the walk, `none` when it leaves the root at any point;
* `walk_isSome` — a path without two adjacent dots never leaves the root.
-/

/-- One component: the empty one and `.` stay, `..` goes up, a name goes down. -/
def enter (position : List Bytes) (component : Bytes) : Option (List Bytes) :=
  if component = [] ∨ component = ofString "." then some position
  else if component = ofString ".." then
    -- from the root there is no way up
    match position with
    | []      => none
    | _ :: up => some up
  else some (component :: position)

/-- The walk over the components of a path, which `isSep` separates. -/
def walk (isSep : Byte → Bool) (path : Bytes) : Option (List Bytes) :=
  (path.splitOnP isSep).foldlM enter []

example : walk (· = '/'.toUInt8) (ofString "/a/../b") = some [ofString "b"] := by decide

example : walk (· = '/'.toUInt8) (ofString "/a/../../b/c") = none := by decide

/-- Components other than `..` never take the walk up. -/
theorem foldlM_enter_isSome {components : List Bytes}
    (h : ∀ component ∈ components, component ≠ ofString "..") (position : List Bytes) :
    (components.foldlM enter position).isSome := by
  induction components generalizing position with
  | nil => rfl
  | cons component components ih =>
    obtain ⟨hne, hrest⟩ := List.forall_mem_cons.mp h
    rw [List.foldlM_cons]
    unfold enter
    rw [if_neg hne]
    split_ifs <;> exact ih hrest _

/-- **Confinement.**  The walk over a path without two adjacent dots stays inside the root,
    whatever separates the components. -/
theorem walk_isSome {path : Bytes} (h : ¬ ofString ".." <:+: path) (isSep : Byte → Bool) :
    (walk isSep path).isSome := by
  apply foldlM_enter_isSome
  rintro component hmem rfl
  exact h (mem_splitOnP_isInfix hmem)

end OsgiManager.Lib
