import ShapeLedger.Config
import ShapeLedger.Descriptor

/-!
The path of the walk: the composites that are open, innermost first. A type
whose key is on the path is not opened again, and a definition is open at
most as often as the settings allow. What is left of that allowance, summed
over a catalog, shrinks with every type that is opened.
-/

namespace ShapeLedger

/-- A composite that is open: the name of its definition and its key. -/
structure OpenType where
  name : String
  key : String
deriving DecidableEq

abbrev Path := List OpenType

namespace Path

def holds (p : Path) (key : String) : Bool := p.any fun o => o.key = key

/-- How often the definition `name` is open. -/
def expansions (p : Path) (name : String) : Nat := p.countP fun o => o.name = name

def push (p : Path) (d : Descriptor) : Path := ⟨d.name, d.pathKey⟩ :: p

/-- How many more types the definitions `names` allow to be opened. -/
def room (limit : Nat) (p : Path) : List String → Nat
  | [] => 0
  | name :: names => (limit - p.expansions name) + room limit p names

theorem expansions_push (p : Path) (d : Descriptor) (name : String) :
    (p.push d).expansions name = p.expansions name + if d.name = name then 1 else 0 := by
  by_cases h : d.name = name <;> simp [expansions, push, h]

theorem room_push_le (limit : Nat) (p : Path) (d : Descriptor) (names : List String) :
    room limit (p.push d) names ≤ room limit p names := by
  induction names with
  | nil => exact Nat.le_refl _
  | cons n names ih =>
    simp only [room, expansions_push]
    omega

theorem room_push_lt {limit : Nat} {p : Path} {d : Descriptor} {names : List String}
    (hmem : d.name ∈ names) (hlimit : p.expansions d.name < limit) :
    room limit (p.push d) names < room limit p names := by
  induction names with
  | nil => simp at hmem
  | cons n names ih =>
    have hle := room_push_le limit p d names
    simp only [room, expansions_push]
    by_cases hn : d.name = n
    · subst hn
      simp only [if_true]
      omega
    · have := ih ((List.mem_cons.mp hmem).resolve_left hn)
      simp only [hn, if_false]
      omega

end Path

end ShapeLedger
