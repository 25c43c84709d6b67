import Lox.Config.Document
import Lox.Proofs.Config.Reading
import Mathlib.Data.List.Induction

/-!
The nearest configuration file.

From the start directory upward the first directory that offers an entry of the right name
decides: its entry is loaded, whatever comes of it, and nothing above is looked at.  The settings
are the standard ones exactly if none is offered up to the root.  A directory of a tree offers
the entry that is there, if its path leads there through directories that may be searched.
-/

namespace Lox.Config

variable {overlay : Overlay} {host : Host Id} {place : Location}

def entry (place : Location) : Bytes := Path.text (place ++ [fileName])

def noting (host : Host Id) : Host (StateM (List Bytes)) where
  stat path := fun asked => (host.stat path, asked ++ [path])
  read path := fun asked => (host.read path, asked ++ [path])
  directory := host.directory
  home := host.home
  clock := host.clock

/-! ## One directory -/

section

variable (offers : Location → Prop)

/-- Of the directories from `place` upward, one below which no configuration file is offered. -/
structure Tried (place above : Location) : Prop where
  le : above <+: place
  first : ∀ deeper, deeper <+: place → above.length < deeper.length → ¬ offers deeper

/-- Of the directories from `place` upward, the first in which a configuration file is offered. -/
structure Nearest (place nearest : Location) : Prop extends Tried offers place nearest where
  offered : offers nearest

end

section

variable {offers : Location → Prop} {above nearest : Location}

theorem Tried.up {name : Bytes} (h : ¬ offers (place ++ [name]))
    (htried : Tried offers place above) : Tried offers (place ++ [name]) above where
  le := htried.le.trans (List.prefix_append place [name])
  first deeper hdeeper hlt := by
    rcases List.prefix_concat_iff.mp hdeeper with rfl | hdeeper
    · exact h
    · exact htried.first deeper hdeeper hlt

/-- Nothing above the nearest configuration file is tried. -/
theorem Nearest.prefix_of_tried (hnearest : Nearest offers place nearest)
    (htried : Tried offers place above) : nearest <+: above := by
  refine List.prefix_of_prefix_length_le hnearest.le htried.le ?_
  by_contra hlt
  exact htried.first nearest hnearest.le (by omega) hnearest.offered

theorem Nearest.unique {other : Location} (hnearest : Nearest offers place nearest)
    (hother : Nearest offers place other) : nearest = other :=
  (hnearest.prefix_of_tried hother.toTried).eq_of_length_le
    (hother.prefix_of_tried hnearest.toTried).length_le

end

def origin (host : Host Id) (start : Bytes) : Location :=
  (Path.Absolute.ofPath host.directory start).location

/--
What becomes of a search for settings if `offers` says which directories offer a configuration
file: the nearest one decides, and nothing above it is asked for.
-/
structure Decides (overlay : Overlay) (host : Host Id) (start : Bytes)
    (offers : Location → Prop) : Prop where
  standard_iff : findFrom overlay host start = .ok (standard host.home) ↔
    ∀ above, above <+: origin host start → ¬ offers above
  nearest : ∀ above, above <+: origin host start → offers above →
    ∃ nearest, Nearest offers (origin host start) nearest ∧
      findFrom overlay host start = load overlay host (entry nearest) ∧
      ∃ asked, (findFrom overlay (noting host) start).run [] =
          (load overlay host (entry nearest), asked) ∧
        ∀ path ∈ asked, ∃ place,
          nearest <+: place ∧ place <+: origin host start ∧ path = entry place

theorem Decides.congr {start : Bytes} {offers offers' : Location → Prop}
    (h : Decides overlay host start offers)
    (hiff : ∀ above, above <+: origin host start → (offers above ↔ offers' above)) :
    Decides overlay host start offers' where
  standard_iff :=
    h.standard_iff.trans (forall₂_congr fun above habove => not_congr (hiff above habove))
  nearest above habove hoffers := by
    obtain ⟨nearest, hnearest, hrest⟩ := h.nearest above habove ((hiff above habove).mpr hoffers)
    exact ⟨nearest, ⟨⟨hnearest.le, fun deeper hdeeper hlt =>
        mt (hiff deeper hdeeper).mpr (hnearest.first deeper hdeeper hlt)⟩,
      (hiff nearest hnearest.le).mp hnearest.offered⟩, hrest⟩

/-! ## Trees -/

end Lox.Config
