import Injector.Culture
import Injector.Diagnostic.Kind

/-!
# Messages

A message holds the names that explain a diagnostic. It is put into words only at the end, when the
language of the composition is known.
-/

namespace Injector

/-- What went wrong, with the names needed to explain it. -/
inductive Message where
  /-- Nothing answers a contract that a binding or root asks for. -/
  | unableToResolve (contract consumer : String)
  /-- The contracts of a loop, the closing one last. -/
  | cyclicDependency (path : String)
  /-- A long-lived instance eagerly holds a shorter-lived one. -/
  | lifetimeDefect (consumer consumerLifetime dependency dependencyLifetime : String)
  /-- A static root eagerly reaches what needs an instance of the composition. -/
  | staticRootDefect (root dependency requirement : String)
  /-- A scoped instance holds one of another scope. -/
  | crossScopeCapture (consumer consumerScope dependency dependencyScope : String)
  /-- A factory variable without a definite type. -/
  | typeCannotBeInferred (variableName binding : String)
  /-- An asynchronous factory. -/
  | asyncFactoryNotSupported (binding : String)
  /-- Setups that depend on each other. -/
  | dependsOnCycle (path : String)
  /-- A setup that another names and nobody declares. -/
  | setupNotFound (setup dependent : String)
  /-- A root that was declared before. -/
  | duplicateRoot (root : String)
  /-- An argument whose type holds a marker. -/
  | genericArgument (argument type : String)
  /-- An implementation without one of its contracts. -/
  | notImplementedContract (implementation contract : String)
  /-- A replaced binding that is not used. -/
  | bindingNotUsed (binding : String)
  /-- A binding that replaces earlier ones for some contracts. -/
  | overriddenBinding (contract binding : String)
  /-- A binding that no root reaches. -/
  | metadataDefect (binding : String)
  /-- A factory variable that the factory does not mention. -/
  | injectionSiteNotUsed (variableName binding : String)
  /-- An instance member taken over from another setup. -/
  | instanceMemberInDependsOnSetup (member setup dependent : String)
  /-- A generic root, which resolve methods cannot serve. -/
  | typeArgInResolveMethod (root type : String)
  deriving DecidableEq, Repr, Inhabited

namespace Message

/-- The kind of a message. -/
def kind : Message → DiagnosticKind
  | .unableToResolve .. => .unableToResolve
  | .cyclicDependency .. => .cyclicDependency
  | .lifetimeDefect .. | .staticRootDefect .. | .crossScopeCapture .. => .lifetimeDefect
  | .typeCannotBeInferred .. => .typeCannotBeInferred
  | .asyncFactoryNotSupported .. => .asyncFactoryNotSupported
  | .dependsOnCycle .. => .dependsOnCycle
  | .setupNotFound .. => .setupNotFound
  | .duplicateRoot .. => .duplicateRoot
  | .genericArgument .. => .genericArgument
  | .notImplementedContract .. => .notImplementedContract
  | .bindingNotUsed .. => .bindingNotUsed
  | .overriddenBinding .. => .overriddenBinding
  | .metadataDefect .. => .metadataDefect
  | .injectionSiteNotUsed .. => .injectionSiteNotUsed
  | .instanceMemberInDependsOnSetup .. => .instanceMemberInDependsOnSetup
  | .typeArgInResolveMethod .. => .typeArgInResolveMethod

/-- Whether the message reports a loop of dependencies. -/
def isCycle (m : Message) : Bool := m.kind == .cyclicDependency

/-- A name between quotes. -/
def quote (name : String) : String := "\"" ++ name ++ "\""

/-- The English wording. -/
def english : Message → String
  | .unableToResolve contract consumer =>
      "Unable to resolve " ++ quote contract ++ " in " ++ consumer ++ "."
  | .cyclicDependency path => "Cyclic dependency has been found: " ++ path ++ "."
  | .lifetimeDefect consumer consumerLifetime dependency dependencyLifetime =>
      consumer ++ " with lifetime " ++ consumerLifetime ++ " cannot eagerly depend on " ++
        dependency ++ " with lifetime " ++ dependencyLifetime ++ "."
  | .staticRootDefect root dependency requirement =>
      "Static root " ++ root ++ " cannot eagerly depend on " ++ dependency ++ ": " ++
        requirement ++ " is not available yet."
  | .crossScopeCapture consumer consumerScope dependency dependencyScope =>
      consumer ++ " in scope " ++ consumerScope ++ " cannot eagerly depend on " ++ dependency ++
        " in scope " ++ dependencyScope ++ "."
  | .typeCannotBeInferred variableName binding =>
      "The type of " ++ quote variableName ++ " in " ++ binding ++ " cannot be inferred."
  | .asyncFactoryNotSupported binding =>
      "Asynchronous factory of " ++ binding ++ " is not supported."
  | .dependsOnCycle path => "Setups depend on each other: " ++ path ++ "."
  | .setupNotFound setup dependent =>
      "Setup " ++ quote setup ++ " required by " ++ quote dependent ++ " was not found."
  | .duplicateRoot root => "Root " ++ root ++ " is declared more than once."
  | .genericArgument argument type =>
      "Argument " ++ quote argument ++ " of type " ++ type ++
        " cannot use a generic type marker."
  | .notImplementedContract implementation contract =>
      implementation ++ " does not implement " ++ contract ++ "."
  | .bindingNotUsed binding => "The binding " ++ binding ++ " is not used."
  | .overriddenBinding contract binding =>
      "The binding " ++ binding ++ " overrides an earlier binding for " ++ contract ++ "."
  | .metadataDefect binding => "The binding " ++ binding ++ " is not reachable from any root."
  | .injectionSiteNotUsed variableName binding =>
      "The injected variable " ++ quote variableName ++ " is never used by the factory of " ++
        binding ++ "."
  | .instanceMemberInDependsOnSetup member setup dependent =>
      "Instance member " ++ quote member ++ " of setup " ++ quote setup ++ " is re-created in " ++
        quote dependent ++ " instead of being shared."
  | .typeArgInResolveMethod root type =>
      "Root " ++ root ++ " of type " ++ type ++
        " uses a generic type marker and is not available through Resolve methods."

/-- The Russian wording. -/
def russian : Message → String
  | .unableToResolve contract consumer =>
      "Невозможно разрешить " ++ quote contract ++ " в " ++ consumer ++ "."
  | .cyclicDependency path => "Обнаружена циклическая зависимость: " ++ path ++ "."
  | .lifetimeDefect consumer consumerLifetime dependency dependencyLifetime =>
      consumer ++ " со временем жизни " ++ consumerLifetime ++ " не может напрямую зависеть от " ++
        dependency ++ " со временем жизни " ++ dependencyLifetime ++ "."
  | .staticRootDefect root dependency requirement =>
      "Статический корень " ++ root ++ " не может напрямую зависеть от " ++ dependency ++ ": " ++
        requirement ++ " ещё не доступен."
  | .crossScopeCapture consumer consumerScope dependency dependencyScope =>
      consumer ++ " в области " ++ consumerScope ++ " не может напрямую зависеть от " ++
        dependency ++ " в области " ++ dependencyScope ++ "."
  | .typeCannotBeInferred variableName binding =>
      "Невозможно вывести тип " ++ quote variableName ++ " в " ++ binding ++ "."
  | .asyncFactoryNotSupported binding =>
      "Асинхронная фабрика " ++ binding ++ " не поддерживается."
  | .dependsOnCycle path => "Настройки зависят друг от друга: " ++ path ++ "."
  | .setupNotFound setup dependent =>
      "Настройка " ++ quote setup ++ ", требуемая " ++ quote dependent ++ ", не найдена."
  | .duplicateRoot root => "Корень " ++ root ++ " объявлен более одного раза."
  | .genericArgument argument type =>
      "Аргумент " ++ quote argument ++ " типа " ++ type ++
        " не может использовать маркер обобщённого типа."
  | .notImplementedContract implementation contract =>
      implementation ++ " не реализует " ++ contract ++ "."
  | .bindingNotUsed binding => "Привязка " ++ binding ++ " не используется."
  | .overriddenBinding contract binding =>
      "Привязка " ++ binding ++ " переопределяет предыдущую привязку для " ++ contract ++ "."
  | .metadataDefect binding => "Привязка " ++ binding ++ " недостижима ни из одного корня."
  | .injectionSiteNotUsed variableName binding =>
      "Внедрённая переменная " ++ quote variableName ++ " не используется фабрикой " ++ binding ++
        "."
  | .instanceMemberInDependsOnSetup member setup dependent =>
      "Член экземпляра " ++ quote member ++ " настройки " ++ quote setup ++
        " создаётся заново в " ++ quote dependent ++ "."
  | .typeArgInResolveMethod root type =>
      "Корень " ++ root ++ " типа " ++ type ++
        " использует маркер обобщённого типа и недоступен через методы Resolve."

/-- The wording in a language. -/
def text (culture : Culture) (m : Message) : String :=
  match culture with
  | .english => m.english
  | .russian => m.russian

end Message

end Injector
