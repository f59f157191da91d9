import Verilower.Model.Program

namespace Verilower

/-- A call that reaches an object of class `owner` runs `method`. -/
structure Target where
  owner : ClassId
  method : MethodId
deriving DecidableEq, Inhabited

namespace Program

/-- The override that a class itself declares for `m`, if it is a concrete instance method. -/
def override? (p : Program) (id : ClassId) (m : Method) : Option MethodId := do
  let c ← p.classes[id]?
  guard !c.isInterface
  let candidate ← p.declaredMethod? c m.name m.params
  let found ← p.methods[candidate]?
  guard found.isConcreteInstance
  return candidate

/-- The overrides of `m` declared at or below `receiver`, in the order of a walk down the
hierarchy. -/
def overrides (p : Program) (receiver : ClassId) (m : Method) : List Target :=
  (p.subtypes receiver).filterMap fun id => (p.override? id m).map fun method => ⟨id, method⟩

/-- The overrides for a receiver class that may not exist. -/
def dispatch (p : Program) (receiver : ClassId) (m : Method) : Except Fault (List Target) := do
  let _ ← p.class? receiver
  return p.overrides receiver m

end Program

end Verilower
