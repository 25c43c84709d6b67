import Lox.FileTree

/-!
What a command sees of the machine that it runs on.
-/

namespace Lox

/--
Files by their paths, the working directory, the home directory and the readings of the clock,
in nanoseconds.
-/
structure Host (m : Type → Type) where
  stat : Bytes → m (Except FileFault Unit)
  read : Bytes → m (Except FileFault Bytes)
  directory : Location
  home : Bytes
  clock : List Int := []

def FileTree.host (t : FileTree) (directory : Location) (home : Bytes) : Host Id where
  stat := t.stat directory
  read := t.read directory
  directory := directory
  home := home

end Lox
