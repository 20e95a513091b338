import Typings.Proofs.Discriminator
import Typings.Proofs.Layout

/-!
Where in a compiled type its occurrences end up. A site is an occurrence with
the way to it: for each list and struct around it the turns that lead inwards,
and the turns that lead to the outermost one. All of it is read off the schema.
A struct that is a union over a property emits the type of that property twice,
so what lies in there has two sites.
-/

namespace Typings

/-- A list or a struct around an occurrence, and the turns from what it compiles
to down to what it holds. -/
structure Level where
  frame : Frame
  turns : List Turn

structure Site where
  link : Link
  /-- What is around the occurrence, innermost first. -/
  levels : List Level
  /-- The turns down to the outermost level, or to the occurrence
  if there is none. -/
  lead : List Turn

/-- The turns through all levels, from the outside in. -/
def Level.allTurns (levels : List Level) : List Turn :=
  levels.reverse.flatMap (·.turns)

namespace Site

def frames (s : Site) : List Frame :=
  s.levels.map (·.frame)

/-- The occurrence that the site belongs to. -/
def occurrence (s : Site) : Occurrence :=
  ⟨s.link, s.frames⟩

/-- Where the occurrence stands. -/
def address (s : Site) : List Turn :=
  s.lead ++ Level.allTurns s.levels

/-- Where the list or struct of a level stands. -/
def around (s : Site) (level : Nat) : List Turn :=
  s.lead ++ Level.allTurns (s.levels.drop (level + 1))

/-- Where the mapped type of the innermost struct stands that binds
the discriminator. -/
def binder? (s : Site) : Option (List Turn) :=
  (s.levels.findIdx? fun l => l.frame.binds).map fun level =>
    s.around level ++ [.object]

/-- The site as seen from further out. -/
def below (s : Site) (turns : List Turn) : Site :=
  { s with lead := turns ++ s.lead }

/-- The site as seen from outside one more level. -/
def within (s : Site) (frame : Frame) (turns : List Turn) : Site :=
  { link := s.link, levels := s.levels ++ [⟨frame, turns ++ s.lead⟩],
    lead := [] }

end Site

def Field.kind : Field → PartKind
  | .pair (.name _) _ _ _ _ _ => .own
  | .pair (.type _) _ _ _ _ _ => .mapped
  | .spread _ _ => .spread

def Field.layout (fields : List Field) : Layout :=
  .of ((fields.filter (·.isLive)).map (·.kind))

/-- The ways to a field of a struct. The selected property stands at both
places where its values are needed, and every other field inside the
mapped type over them. -/
def structTurns (selector? : Option String) (place : Place)
    (turns : List Turn) : List (List Turn) :=
  match selector? with
  | none => [turns]
  | some name =>
    if place = .property name true then [[.object, .keys], [.index]]
    else [.object :: .value :: turns]

/-- The sites in the fields of a struct as seen from outside it. -/
def structSites (names : List String) (selector? : Option String)
    (placed : List (Place × List Turn × Site)) : List Site :=
  placed.flatMap fun e =>
    (structTurns selector? e.1 e.2.1).map fun turns =>
      e.2.2.within (.struct names selector? e.1) turns

def unionTurns (members : List Schema) (i : Nat) : List Turn :=
  if (members.filter (·.isLive)).length = 1 then [] else [.member i]

mutual

def Schema.sites : Schema → List Site
  | .list item _ _ => item.sites.map (·.within .list [.argument 0])
  | .tuple items _ => sitesLive (fun i => [.member i]) 0 items
  | .union members _ => sitesLive (unionTurns members) 0 members
  | .struct fields _ =>
    structSites (Field.liveNames fields)
      (selectorOf (Field.liveNames fields) (fieldOccurrences fields))
      (fieldSites (Field.layout fields) {} fields)
  | .reference path _ => [⟨.reference path, [], []⟩]
  | .concrete child args _ =>
      child.sites ++ sitesAll (fun i => [.argument i]) 0 args
  | .template child _ _ => child.sites
  | .dispatcher registry indices _ => [⟨.dispatcher registry indices, [], []⟩]
  | .indexed child _ _ => child.sites
  | _ => []

/-- The sites in types that stand one after the other. -/
def Schema.sitesAll (way : Nat → List Turn) (i : Nat) : List Schema → List Site
  | [] => []
  | type :: rest =>
      type.sites.map (·.below (way i)) ++ sitesAll way (i + 1) rest

/-- The sites in those of the types that are still there. -/
def Schema.sitesLive (way : Nat → List Turn) (i : Nat) : List Schema → List Site
  | [] => []
  | type :: rest =>
    if type.isLive then
      type.sites.map (·.below (way i)) ++ sitesLive way (i + 1) rest
    else sitesLive way i rest

/-- The sites in the fields that are still there, each with its place and the
way to its field. -/
def Schema.fieldSites (whole before : Layout) :
    List Field → List (Place × List Turn × Site)
  | [] => []
  | .pair (.name name) type optional deprecated description attributes ::
      rest =>
    if (Field.pair (.name name) type optional deprecated description
      attributes).isLive then
      (type.sites.map fun s =>
        (.property name !(Field.liveNames rest).contains name,
          whole.turns before .own, s)) ++
        fieldSites whole (before.next .own) rest
    else fieldSites whole before rest
  | .pair (.type key) type optional deprecated description attributes :: rest =>
    if (Field.pair (.type key) type optional deprecated description
      attributes).isLive then
      (key.sites.map fun s =>
        (.keys, whole.turns before .mapped ++ [.keys], s)) ++ (type.sites.map
          fun s => (.rest, whole.turns before .mapped ++ [.value], s)) ++
        fieldSites whole (before.next .mapped) rest
    else fieldSites whole before rest
  | .spread type attributes :: rest =>
    if (Field.spread type attributes).isLive then
      (type.sites.map fun s => (.rest, whole.turns before .spread, s)) ++
        fieldSites whole (before.next .spread) rest
    else fieldSites whole before rest

end

def Schema.rootSites : Schema → List Site
  | .template child _ _ => child.rootSites
  | .dispatcher _ _ _ => []
  | .indexed _ _ _ => []
  | type => type.sites

/-- The sites in a type, at the root or away from it. -/
def Schema.sitesAt (isRoot : Bool) (type : Schema) : List Site :=
  if isRoot then type.rootSites else type.sites

theorem Site.frames_within {s : Site} {frame : Frame} {turns : List Turn} :
    (s.within frame turns).frames = s.frames ++ [frame] := by
  simp [frames, within]

theorem Site.occurrence_within {s : Site} {frame : Frame} {turns : List Turn} :
    (s.within frame turns).occurrence = s.occurrence.within frame := by
  rw [occurrence, frames_within]
  rfl

/-- What a site in a field belongs to, with its place. -/
def Site.placed (e : Place × List Turn × Site) : Place × Occurrence :=
  (e.1, e.2.2.occurrence)

theorem map_placed (sites : List Site) (place : Place) (turns : List Turn) :
    (sites.map fun s => (place, turns, s)).map Site.placed =
      (sites.map (·.occurrence)).map fun o => (place, o) := by
  simp [Site.placed]

/-- A field has a way to it, so each site in the fields of a struct is
one of the struct. -/
theorem mem_structSites_iff {names : List String} {selector? : Option String}
    {placed : List (Place × List Turn × Site)} {o : Occurrence} :
    o ∈ (structSites names selector? placed).map (·.occurrence) ↔
      o ∈ (placed.map Site.placed).map fun e =>
        e.2.within (.struct names selector? e.1) := by
  have hways :
      ∀ place turns, ∃ way, way ∈ structTurns selector? place turns := by
    intro place turns
    rw [structTurns.eq_def]
    split
    · exact ⟨_, List.mem_singleton_self _⟩
    · split
      · exact ⟨_, List.mem_cons_self⟩
      · exact ⟨_, List.mem_singleton_self _⟩
  rw [List.map_map, List.mem_map, List.mem_map]
  constructor
  · rintro ⟨s, hs, rfl⟩
    obtain ⟨e, he, hs⟩ := List.mem_flatMap.mp hs
    obtain ⟨way, -, rfl⟩ := List.mem_map.mp hs
    exact ⟨e, he, Site.occurrence_within.symm⟩
  · rintro ⟨e, he, rfl⟩
    obtain ⟨way, hway⟩ := hways e.1 e.2.1
    exact ⟨_, List.mem_flatMap.mpr ⟨e, he, List.mem_map_of_mem hway⟩,
      Site.occurrence_within⟩

mutual

/-- Every occurrence has a site, and every site is that of an occurrence. -/
theorem Schema.mem_sites_iff : ∀ (type : Schema) (o : Occurrence),
    o ∈ type.sites.map (·.occurrence) ↔ o ∈ type.occurrences
  | .list item _ _, o => by
      have hmap :
          (item.sites.map (·.within .list [.argument 0])).map (·.occurrence) =
          (item.sites.map (·.occurrence)).map (·.within .list) := by
        simp [Site.occurrence_within]
      rw [Schema.sites, Schema.occurrences, hmap, List.mem_map, List.mem_map]
      simp only [Schema.mem_sites_iff item]
  | .tuple items _, o => Schema.mem_sitesLive_iff items _ _ o
  | .union members _, o => Schema.mem_sitesLive_iff members _ _ o
  | .struct fields _, o => by
      rw [Schema.sites, Schema.occurrences, mem_structSites_iff,
        structOccurrences, List.mem_map, List.mem_map]
      simp only [Schema.mem_fieldSites_iff fields]
  | .reference _ _, _ | .dispatcher _ _ _, _ => Iff.rfl
  | .concrete child args _, o => by
      rw [Schema.sites, Schema.occurrences,
        List.map_append, List.mem_append, List.mem_append,
        Schema.mem_sites_iff child, Schema.mem_sitesAll_iff args]
  | .template child _ _, o => Schema.mem_sites_iff child o
  | .indexed child _ _, o => Schema.mem_sites_iff child o
  | .any _, _ | .unchecked _, _ | .boolean _, _ | .string _ _, _ |
      .numeric _ _ _, _
  | .array _ _ _ _, _ | .enum _ _ _, _ | .literal _ _ _, _ => Iff.rfl

theorem Schema.mem_sitesAll_iff :
    ∀ (types : List Schema) (way : Nat → List Turn) (i : Nat)
    (o : Occurrence), o ∈ (Schema.sitesAll way i types).map (·.occurrence) ↔
      o ∈ Schema.occurrencesAll types
  | [], _, _, _ => Iff.rfl
  | type :: rest, way, i, o => by
      rw [Schema.sitesAll, Schema.occurrencesAll,
        List.map_append, List.mem_append, List.mem_append,
        Schema.mem_sitesAll_iff rest, List.map_map]
      exact or_congr_left (Schema.mem_sites_iff type o)

theorem Schema.mem_sitesLive_iff :
    ∀ (types : List Schema) (way : Nat → List Turn) (i : Nat)
    (o : Occurrence), o ∈ (Schema.sitesLive way i types).map (·.occurrence) ↔
      o ∈ Schema.occurrencesLive types
  | [], _, _, _ => Iff.rfl
  | type :: rest, way, i, o => by
      rw [Schema.sitesLive, Schema.occurrencesLive]
      split
      · rw [List.map_append, List.mem_append, List.mem_append,
          Schema.mem_sitesLive_iff rest, List.map_map]
        exact or_congr_left (Schema.mem_sites_iff type o)
      · exact Schema.mem_sitesLive_iff rest way i o

theorem Schema.mem_fieldSites_iff :
    ∀ (fields : List Field) (whole before : Layout) (e : Place × Occurrence),
    e ∈ (Schema.fieldSites whole before fields).map Site.placed ↔
      e ∈ Schema.fieldOccurrences fields
  | [], _, _, _ => Iff.rfl
  | .pair (.name name) type optional deprecated description attributes :: rest,
      whole, before, e => by
      rw [Schema.fieldSites, Schema.fieldOccurrences]
      split
      · rw [List.map_append, List.mem_append,
          List.mem_append, Schema.mem_fieldSites_iff rest,
          map_placed, List.mem_map, List.mem_map]
        simp only [Schema.mem_sites_iff type]
      · exact Schema.mem_fieldSites_iff rest whole before e
  | .pair (.type key) type optional deprecated description attributes :: rest,
      whole, before, e => by
      rw [Schema.fieldSites, Schema.fieldOccurrences]
      split
      · rw [List.map_append, List.map_append,
          List.mem_append, List.mem_append, List.mem_append, List.mem_append,
          Schema.mem_fieldSites_iff rest, map_placed, map_placed, List.mem_map,
          List.mem_map, List.mem_map, List.mem_map]
        simp only [Schema.mem_sites_iff key, Schema.mem_sites_iff type]
      · exact Schema.mem_fieldSites_iff rest whole before e
  | .spread type attributes :: rest, whole, before, e => by
      rw [Schema.fieldSites, Schema.fieldOccurrences]
      split
      · rw [List.map_append, List.mem_append,
          List.mem_append, Schema.mem_fieldSites_iff rest,
          map_placed, List.mem_map, List.mem_map]
        simp only [Schema.mem_sites_iff type]
      · exact Schema.mem_fieldSites_iff rest whole before e

end

theorem Schema.mem_rootSites_iff (type : Schema) (o : Occurrence) :
    o ∈ type.rootSites.map (·.occurrence) ↔ o ∈ type.rootOccurrences := by
  induction type using Schema.rootSites.induct with
  | case1 child params attributes ih => exact ih
  | case2 => exact Iff.rfl
  | case3 => exact Iff.rfl
  | case4 type htemplate hdispatcher hindexed =>
      rw [Schema.rootSites.eq_4 _ htemplate hdispatcher hindexed,
        Schema.rootOccurrences.eq_4 _ htemplate hdispatcher hindexed]
      exact Schema.mem_sites_iff type o

theorem Schema.mem_sitesAt_iff {isRoot : Bool} {type : Schema}
    {o : Occurrence} :
    o ∈ (type.sitesAt isRoot).map (·.occurrence) ↔
      o ∈ type.occurrencesAt isRoot := by
  cases isRoot with
  | false => exact Schema.mem_sites_iff type o
  | true => exact Schema.mem_rootSites_iff type o

end Typings
