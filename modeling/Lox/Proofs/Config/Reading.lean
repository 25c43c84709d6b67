import Lox.FileTree
import Mathlib.Data.List.Basic

/-!
Looking at absolute paths.

The path of a location leads to what is there, however deep it lies, as long as the system takes
the path and lets every directory on the way be searched.  Otherwise nothing is seen.
-/

namespace Lox.FileTree

variable {t : FileTree} {place here : Location}

/--
A location that its path leads to, if there is anything.  The system takes neither paths nor
names that are too long, and no name with a zero byte.
-/
structure Reached (t : FileTree) (place : Location) : Prop where
  path : (Path.text place).length ≤ pathLimit
  names : ∀ name ∈ place, name.length ≤ nameLimit ∧ 0 ∉ name
  way : ∀ above, above <+: place → above ≠ place → above ∉ t.closed

theorem Reached.entry {above : Location} {name : Bytes} (h : t.Reached (place ++ [name]))
    (habove : above <+: place) : t.Reached (above ++ [name]) where
  path := by
    obtain ⟨below, rfl⟩ := habove
    refine Nat.le_trans ?_ h.path
    simp only [Path.text_eq_flatMap, List.append_ne_nil_of_right_ne_nil, List.flatMap_append,
      List.length_append, ne_eq, List.cons_ne_nil, not_false_eq_true]
    omega
  names n hn := by
    refine h.names n ?_
    rcases List.mem_append.mp hn with hn | hn
    · exact List.mem_append_left _ (habove.subset hn)
    · exact List.mem_append_right _ hn
  way directory hdirectory hne := by
    obtain heq | hdirectory := List.prefix_concat_iff.mp hdirectory
    · exact absurd heq hne
    · have hstart := hdirectory.trans habove
      refine h.way directory (hstart.trans (List.prefix_append _ _)) ?_
      rintro rfl
      exact absurd hstart.length_le (by simp)

variable (directory : Location)

end Lox.FileTree
