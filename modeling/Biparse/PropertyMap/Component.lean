import Biparse.Component
import Biparse.PropertyMap.Basic

/-!
# Components that build property maps

The empty start of a record, the fold that writes one property, and the mapping that makes a map of
one property.
-/

namespace Biparse.PropertyMap

/-- Supplies the empty map and recognizes it. -/
def initializer (V : Type) : Initializer (PropertyMap V) where
  supply _ := empty
  recognizesEmpty := isEmpty

/-- How `initializer` is shown. -/
def initializerDisplay : String := "\x7bempty properties\x7d"

/-- Writes the element under `key`. A later write of the key replaces an earlier one for good. The
element is taken back only from a map that binds the key; the rest of the map can always be. -/
def putFold (V : Type) (key : String) : Fold (PropertyMap V) V (PropertyMap V) where
  forward _ left element := left.insert key element
  leftInverse result := some (result.erase key)
  rightInverse result := result.get? key

/-- How `putFold` is shown. -/
def putDisplay (key : String) : String := "\x7bput " ++ key ++ "\x7d"

/-- Makes a map that binds `key` alone; backward takes apart exactly such maps. -/
def singleton (V : Type) (key : String) : Mapping V (PropertyMap V) where
  forward _ value := .ok (empty.insert key value)
  backward result := if result.size = 1 then result.get? key else none

end Biparse.PropertyMap
