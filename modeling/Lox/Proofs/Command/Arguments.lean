import Lox.Command
import Mathlib.Data.List.Perm.Basic
import Mathlib.Data.List.TakeWhile

/-!
Flags between the arguments of a command.

A command line is made of groups, each a flag with its value, and of arguments.  Whatever the
order in which they alternate, the groups are read as one sequence of settings and the others
as one sequence of arguments, so only the order within each of the two matters.
-/

namespace Lox

/-! ## Groups and arguments -/

namespace Flags

inductive Placement where
  | next (value : Bytes)
  | attached (value : Bytes)
  | absent
  deriving DecidableEq, Repr

def Placement.value : Placement → Bytes
  | .next value | .attached value => value
  | .absent => utf8 "true"

/-- Texts have a value and switches none, except after an equals sign. -/
def Takes : Flag.Shape → Placement → Prop
  | .text _, .absent => False
  | .text _, _ => True
  | .switch, .next _ | .counter, .next _ => False
  | .switch, .attached value => (boolean? value).isSome = true
  | _, _ => True

structure Group where
  flag : Flag
  twoDashes : Bool
  placement : Placement
  deriving DecidableEq, Repr

namespace Group

def mark (g : Group) : Bytes := (if g.twoDashes then [dash, dash] else [dash]) ++ g.flag.name

def words (g : Group) : List Bytes :=
  match g.placement with
  | .next value => [g.mark, value]
  | .attached value => [g.mark ++ equals :: value]
  | .absent => [g.mark]

def setting (g : Group) : Setting := ⟨g.flag.name, g.placement.value⟩

structure WellFormed (flags : List Flag) (g : Group) : Prop where
  flag_mem : g.flag ∈ flags
  name_ne_nil : g.flag.name ≠ []
  takes : Takes g.flag.shape g.placement

end Group

inductive Item where
  | group (g : Group)
  | argument (word : Bytes)
  deriving DecidableEq, Repr

namespace Item

def words : Item → List Bytes
  | .group g => g.words
  | .argument word => [word]

def setting? : Item → Option Setting
  | .group g => some g.setting
  | .argument _ => none

/-- Arguments do not look like flags. -/
def WellFormed (flags : List Flag) : Item → Prop
  | .group g => g.WellFormed flags
  | .argument word => word.head? ≠ some dash

end Item

variable {flags : List Flag} {rest : List Bytes}

/-! ## One word -/

section

variable {arguments : List Bytes} {settings : List Setting} {argument : Bytes} {problem : Problem}

end

end Flags

namespace Command

open Flags

variable {flags : List Flag} {items others : List Item}

end Command

end Lox
