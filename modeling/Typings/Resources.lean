import Typings.Declaration

/-!
The classes that hold resources of a pack, and the kind of resource that
each of them holds.
-/

namespace Typings

/-- Class by kind of resource: first those of data packs, then those
of resource packs. -/
def classByResource : List (String × String) :=
  [("advancement", "AdvancementClass"),
   ("banner_pattern", "BannerPatternClass"),
   ("chat_type", "ChatTypeClass"),
   ("damage_type", "DamageTypeClass"),
   ("dialog", "DialogClass"),
   ("enchantment", "EnchantmentClass"),
   ("enchantment_provider", "EnchantmentProviderClass"),
   ("function", "MCFunctionClass"),
   ("instrument", "InstrumentClass"),
   ("item_modifier", "ItemModifierClass"),
   ("jukebox_song", "JukeboxSongClass"),
   ("loot_table", "LootTableClass"),
   ("predicate", "PredicateClass"),
   ("recipe", "RecipeClass"),
   ("structure", "StructureClass"),
   ("test_environment", "TestEnvironmentClass"),
   ("test_instance", "TestInstanceClass"),
   ("trim_material", "TrimMaterialClass"),
   ("trim_pattern", "TrimPatternClass"),
   ("atlas", "AtlasClass"),
   ("block_definition", "BlockStateClass"),
   ("equipment", "EquipmentClass"),
   ("font", "FontClass"),
   ("item_definition", "ItemModelDefinitionClass"),
   ("lang", "LanguageClass"),
   ("model", "ModelClass"),
   ("particle", "ParticleClass"),
   ("post_effect", "PostEffectClass"),
   ("sound", "SoundEventClass"),
   ("texture", "TextureClass")]

/-- The kind of resource of each class, in order of the class names. -/
def resourcesByClass : Alias :=
  let sorted := classByResource.mergeSort fun a b => decide (a.2 ≤ b.2)
  { name := "ResourceClassTypes",
    type := .object (sorted.map fun r => .plain r.2 (.text r.1)) }

end Typings
