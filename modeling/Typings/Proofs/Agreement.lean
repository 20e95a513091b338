import Typings.Dispatcher.Symbol

/-!
What compiling depends on. Two environments that answer every lookup alike
compile every type alike, whatever the order of their tables.
-/

namespace Typings

/-- The environments give the same answer to every lookup. -/
structure Environment.Agrees (env env' : Environment) : Prop where
  symbols : ∀ path, env.symbols.get? path = env'.symbols.get? path
  dispatchers :
    ∀ registry, env.dispatchers.get? registry = env'.dispatchers.get? registry
  registries : env.registries = env'.registries
  hasTranslationKeys : env.hasTranslationKeys = env'.hasTranslationKeys

namespace Environment.Agrees

variable {env env' : Environment} (h : env.Agrees env')

include h

theorem target_eq (generics : List String) (path : Json) :
    env.target generics path = env'.target generics path := by
  have hfollow : ∀ path, env.follow path = env'.follow path := by
    intro path
    rw [Environment.follow, Environment.follow, h.symbols]
  simp only [Environment.target, hfollow]

theorem compileReference_eq (scope : Scope) (path : Json) :
    compileReference env scope path = compileReference env' scope path := by
  simp only [compileReference, h.target_eq]

theorem identifiersOf_eq (registry : Json) :
    identifiersOf env registry = identifiersOf env' registry := by
  have hknows : ∀ name, env.knowsRegistry name = env'.knowsRegistry name := by
    intro name
    rw [Environment.knowsRegistry, Environment.knowsRegistry, h.registries]
  simp only [identifiersOf, hknows]

theorem compileIdentifier_eq (registry tags : Json) :
    compileIdentifier env registry tags =
      compileIdentifier env' registry tags := by
  simp only [compileIdentifier, h.identifiersOf_eq]

theorem translationKeyType_eq :
    translationKeyType env = translationKeyType env' := by
  simp only [translationKeyType, h.hasTranslationKeys]

theorem compileDispatcher_eq (scope : Scope) (registry : Json)
    (index : IndexForm) (keys : List Json) :
    compileDispatcher env scope registry index keys =
      compileDispatcher env' scope registry index keys := by
  have hdispatcher : env.dispatcher registry = env'.dispatcher registry := by
    simp only [Environment.dispatcher, h.dispatchers]
  simp only [compileDispatcher, hdispatcher]

end Environment.Agrees

variable {env env' : Environment}

mutual

theorem Plan.compile_of_agrees (h : env.Agrees env') :
    ∀ (scope : Scope) (plan : Plan),
      plan.compile env scope = plan.compile env' scope
  | _, .fixed _ _ _ => by simp only [Plan.compile]
  | _, .identifier registry tags => by
      simp only [Plan.compile, h.compileIdentifier_eq registry tags]
  | _, .translationKey => by simp only [Plan.compile, h.translationKeyType_eq]
  | _, .enum _ _ => by simp only [Plan.compile]
  | scope, .reference path => by
      simp only [Plan.compile, h.compileReference_eq scope path]
  | _, .concrete path args => by
      simp only [Plan.compile, h.compileReference_eq,
        fun scope => Plan.compileAll_of_agrees h scope args]
  | _, .template _ body => by
      simp only [Plan.compile, fun scope => Plan.compile_of_agrees h scope body]
  | _, .list item _ => by
      simp only [Plan.compile, fun scope => Plan.compile_of_agrees h scope item]
  | _, .union members => by
      simp only [Plan.compile,
        fun scope => Plan.compileAll_of_agrees h scope members]
  | _, .tuple items => by
      simp only [Plan.compile,
        fun scope => Plan.compileAll_of_agrees h scope items]
  | _, .struct entries => by
      simp only [Plan.compile,
        fun scope => Plan.compileEntries_of_agrees h scope entries]
  | scope, .dispatcher registry index keys => by
      simp only [Plan.compile, h.compileDispatcher_eq]

theorem Plan.compileAll_of_agrees (h : env.Agrees env') :
    ∀ (scope : Scope) (plans : List Plan),
      Plan.compileAll env scope plans = Plan.compileAll env' scope plans
  | _, [] => by simp only [Plan.compileAll]
  | _, p :: rest => by
      simp only [Plan.compileAll, fun scope => Plan.compile_of_agrees h scope p,
        fun scope => Plan.compileAll_of_agrees h scope rest]

theorem Plan.compileEntries_of_agrees (h : env.Agrees env') :
    ∀ (scope : Scope) (entries : List Entry),
      Plan.compileEntries env scope entries =
        Plan.compileEntries env' scope entries
  | _, [] => by simp only [Plan.compileEntries]
  | _, .pair _ value _ _ :: rest => by
      simp only [Plan.compileEntries,
        fun scope => Plan.compile_of_agrees h scope value,
        fun scope => Plan.compileEntries_of_agrees h scope rest]
  | _, .dynamic key value :: rest => by
      simp only [Plan.compileEntries,
        fun scope => Plan.compileKey_of_agrees h scope key,
        fun scope => Plan.compile_of_agrees h scope value,
        fun scope => Plan.compileEntries_of_agrees h scope rest]
  | _, .spread value :: rest => by
      simp only [Plan.compileEntries,
        fun scope => Plan.compile_of_agrees h scope value,
        fun scope => Plan.compileEntries_of_agrees h scope rest]

theorem Plan.compileKey_of_agrees (h : env.Agrees env') :
    ∀ (scope : Scope) (key : KeyPlan),
      Plan.compileKey env scope key = Plan.compileKey env' scope key
  | _, .fixed _ _ => by simp only [Plan.compileKey]
  | _, .registry registry => by
      simp only [Plan.compileKey, h.identifiersOf_eq registry]
  | _, .computed plan => by
      simp only [Plan.compileKey,
        fun scope => Plan.compile_of_agrees h scope plan]

end

theorem Schema.compile_of_agrees (h : env.Agrees env') (scope : Scope)
    (type : Schema) :
    type.compile env scope = type.compile env' scope := by
  simp only [Schema.compile, Plan.compile_of_agrees h]

theorem DispatcherSymbol.build_of_agrees (h : env.Agrees env')
    (registry : String) (members : Table Schema) :
    DispatcherSymbol.build env registry members =
      DispatcherSymbol.build env' registry members := by
  simp only [DispatcherSymbol.build, h.dispatchers, compileMember,
    Schema.compile_of_agrees h]

end Typings
