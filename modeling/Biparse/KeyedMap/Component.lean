import Biparse.Component
import Biparse.KeyedMap.Basic

/-!
# Components that build keyed maps

The empty start, the fold that writes one key, and the mapping that makes a map of one key.
-/

namespace Biparse.KeyedMap

/-- Supplies the empty map and recognizes it. -/
def initializer (K V : Type) [BEq K] : Initializer (KeyedMap K V) where
  supply _ := empty
  recognizesEmpty := isEmpty

/-- How `initializer` is shown. -/
def initializerDisplay : String := "\x7bemptymap\x7d"

/-- Writes the element under `key`. Both inverses refuse a map without the key. -/
def putFold (K V : Type) [BEq K] (key : K) : Fold (KeyedMap K V) V (KeyedMap K V) where
  forward _ left element := left.insert key element
  leftInverse result := result.remove? key
  rightInverse result := result.get? key

/-- How `putFold` is shown, given how its key is. -/
def putDisplay (key : String) : String := "\x7bput " ++ key ++ "\x7d"

/-- Makes a map that binds `key` alone; backward takes apart maps of one entry under that key. -/
def singleton (K V : Type) [BEq K] (key : K) : Mapping V (KeyedMap K V) where
  forward _ value := .ok (empty.insert key value)
  backward result := if result.size = 1 then result.get? key else none

/-- How `singleton` is shown, given how its key is. -/
def singletonDisplay (key : String) : String := "\x7bsinglemap " ++ key ++ "\x7d"

end Biparse.KeyedMap
