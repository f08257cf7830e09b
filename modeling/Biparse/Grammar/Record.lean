import Biparse.Grammar.Print
import Biparse.KeyedMap.Component
import Biparse.PropertyMap.Component
import Biparse.Record.Creator
import Biparse.Record.Sample
import Biparse.Value

/-!
# Grammars of maps and records

Entries are words behind a mark that says which property they are written to. A list of entries
makes a keyed map or a property map, and a property map makes a record.
-/

namespace Biparse.Grammar

/-! ## Keyed maps -/

/-- One entry of a keyed map: a mark, then the word written under a key. -/
def keyedEntry (mark key : String) :
    Reduction (KeyedMap String String) (KeyedMap String String) :=
  .put (.prefixed mark .word) (KeyedMap.putFold String String key)

/-- Entries of a keyed map with the keys `a` and `b`. -/
def keyed (separator : String) (swapped : Bool) : Grammar (KeyedMap String String) where
  rule :=
    .reduce (.initial (KeyedMap.initializer String String))
      (.join separator (.choice swapped (keyedEntry "+" "a") (keyedEntry "-" "b")))
  bound m := m.size + 1

/-- A word under the key `a`, and optionally a second one under `b`. -/
def keyedFirst : Grammar (KeyedMap String String) where
  rule :=
    .reduce (.reduce .word (.apply (KeyedMap.singleton String String "a")))
      (.optional (.prefixed ":" (.put .word (KeyedMap.putFold String String "b"))))
  bound _ := 1

/-! ## Records -/

variable [Payloads]

/-- How the entries of a record are written. -/
structure EntryForm where
  markA : String := "+"
  markB : String := "-"
  separator : String := ","
  swapped : Bool := false
deriving Repr, DecidableEq

/-- A word as a text value. -/
def textValue : Rule Value := .reduce .word (.apply (Value.erase .string))

/-- One entry of a record: a mark, then the word written to a property. -/
def propertyEntry (mark key : String) : Reduction (PropertyMap Value) (PropertyMap Value) :=
  .put (.prefixed mark textValue) (PropertyMap.putFold Value key)

/-- The property map that a list of entries makes. -/
def properties (form : EntryForm) : Rule (PropertyMap Value) :=
  .reduce (.initial (PropertyMap.initializer Value))
    (.join form.separator
      (.choice form.swapped (propertyEntry form.markA "a") (propertyEntry form.markB "b")))

/-- A list of entries and what a mapping makes of its property map. -/
def recordRule {R : Type} (form : EntryForm) (mapping : Mapping (PropertyMap Value) R) : Rule R :=
  .reduce (properties form) (.apply mapping)

/-- A record that a creator makes. No map it takes a record apart into has more entries than the
creator lists properties. -/
def ofCreator {R : Type} (form : EntryForm) (creator : RecordCreator R) : Grammar R :=
  ⟨recordRule form creator.mapping, fun _ => creator.getters.length + 1⟩

/-- A record that a builder makes, which is never printed. -/
def ofBuilder {R : Type} (form : EntryForm) (builder : RecordBuilder R) : Grammar R :=
  ⟨recordRule form builder.mapping, fun _ => 1⟩

/-- Behind a literal. -/
def behind {R : Type} (literal : String) (g : Grammar R) : Grammar R :=
  ⟨.prefixed literal g.rule, g.bound⟩

/-- Items made from the listed properties. -/
def items (form : EntryForm) (listed : List String) (config : BuilderConfig) :
    Except ConfigError (Grammar Item) :=
  (RecordCreator.new Item.shape listed config).map (ofCreator form)

/-- Items made by a builder. -/
def builtItems (form : EntryForm) (config : BuilderConfig) : Except ConfigError (Grammar Item) :=
  (RecordBuilder.new Item.shape config).map (ofBuilder form)

/-- Items with their location, behind a literal. -/
def placedItems (record literal : String) (form : EntryForm) (config : BuilderConfig) :
    Except ConfigError (Grammar PlacedItem) :=
  (RecordCreator.new (PlacedItem.shape record) ["a", "b"] config).map fun creator =>
    behind literal (ofCreator form creator)

/-! ## Words promoted to records -/

/-- A word as a text value, which a plus sign after it promotes to a record of type `t` holding
the word under `a`. -/
def promotedBy (t : Ty) (creator : RecordCreator t.Carrier) : Grammar Value where
  rule :=
    .reduce textValue
      (.optional (.prefixed "+"
        (.chain (.apply (PropertyMap.singleton Value "a"))
          (.chain (.apply creator.mapping) (.apply (Value.erase t))))))
  bound _ := 1

/-- Words, promoted to items. -/
def promotedItem : Except ConfigError (Grammar Value) :=
  (RecordCreator.new Item.shape ["a"] {}).map (promotedBy .item)

/-- Words, promoted to one-text records. -/
def promotedTag : Except ConfigError (Grammar Value) :=
  (RecordCreator.new Tag.shape ["a"] {}).map (promotedBy .tag)

end Biparse.Grammar
