import Typings.ImportPaths

/-!
Types written by hand, for symbols whose compiled type would recur
forever or grow too large for a type checker. An override replaces the
whole type of its symbol.
-/

namespace Typings

/-- A type written by hand, with the imports and type parameters it needs. -/
structure Override where
  type : TypeExpr
  imports : List String
  params : List TypeParameter := []

namespace Override

open TypeExpr

/-- The keys are a literal union, which keeps the type small. -/
def effectByType : Override :=
  let symbol := named "SymbolEntityEffect"
  let keys := reference "LiteralUnion" [symbol.keyof]
  let value := intersection
    [object [.plain "type" (named "S")],
     conditional (named "S") symbol.keyof (access symbol (named "S"))
       (named "RootNBT") true]
  { type := access (mapped "S" keys value true none) keys
    imports :=
      ["sandstone::LiteralUnion", "::java::dispatcher::SymbolEntityEffect",
      "sandstone::arguments::nbt::RootNBT"] }

/-- The properties of any block, since a union over all blocks is
too large to check. -/
def anyBlockState : Override :=
  { type := object
      [.plain "block" (access (named "Registry") (text "minecraft:block")),
       .mk "properties" (reference "SymbolMcdocBlockStates" [text "%none"]) true
         []]
    imports := ["::java::registry::Registry",
      "::java::dispatcher::SymbolMcdocBlockStates"] }

/-- Components by name, and removed components behind an exclamation mark. -/
def componentChanges : Override :=
  let symbol := named "SymbolDataComponent"
  let components :=
    mapped "Key" symbol.keyof (access symbol (named "Key")) true none
  let removals := mapped "Key" symbol.keyof noProperties true
    (some (template "!" [.mk (reference "Extract" [named "Key", string]) ""]))
  { type := intersection [components, removals]
    imports := ["::java::dispatcher::SymbolDataComponent"] }

/-- The cases of each known component, or those of any namespaced one. -/
def componentCases : Override :=
  let symbol := named "SymbolDataComponent"
  let cases := mapped "S" symbol.keyof
    (intersection
      [object [.plain "component" (named "S")],
       reference "SelectCases" [access symbol (named "S")]]) true none
  let known := reference "NonNullable" [access cases symbol.keyof]
  let other :=
    intersection [named "RootNBT", object [.plain "component" identifierText]]
  { type := union [known, other]
    imports := ["::java::dispatcher::SymbolDataComponent",
      "::java::assets::item_definition::SelectCases",
      "sandstone::arguments::nbt::RootNBT"] }

/-- Text holds lists of text; one level of them is enough. -/
def oneLevelText : Override :=
  let content := union [string, named "TextObject"]
  { type := union
      [string, named "TextObject",
       reference "NBTList"
         [content, object [.plain "leftExclusive" (truth false),
           .plain "min" (number (.int 1))]]]
    imports := ["::java::util::text::TextObject", "sandstone::NBTList"] }

/-- The keys are the characters used in the pattern. -/
def patternRecipe : Override :=
  let row := reference "StringSmallerThan4" [string]
  let rows (t : TypeExpr) : TypeExpr :=
    operator "readonly" (tuple [t, optional t, optional t])
  { type := intersection
      [named "NotificationInfo", named "CraftingBookInfo",
       object
         [.plain "pattern" (named "PATTERN"),
          .plain "key" (reference "PatternKeys" [named "PATTERN",
            named "Ingredient"]),
          .plain "result" (named "ItemStackTemplate")]]
    imports := ["::java::data::recipe::NotificationInfo",
      "::java::data::recipe::CraftingBookInfo",
      "::java::data::recipe::Ingredient",
      "::java::world::item::ItemStackTemplate",
      "sandstone::arguments::StringSmallerThan4",
      "sandstone::arguments::PatternKeys"]
    params := [{ name := "PATTERN", bound := some (rows row),
                 fallback := some (rows string) }] }

/-- The overrides by the path of their symbol. -/
def all : List (String × Override) :=
  [("::java::data::enchantment::effect::EntityEffect", effectByType),
   ("::java::data::loot::condition::BlockStateProperty", anyBlockState),
   ("::java::world::component::DataComponentPatch", componentChanges),
   ("::java::assets::item_definition::ComponentStrings", componentCases),
   ("::java::util::text::Text", oneLevelText),
   ("::java::data::recipe::CraftingShaped", patternRecipe)]

def find? (path : String) : Option Override :=
  all.lookup path

end Override

end Typings
