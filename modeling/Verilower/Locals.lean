import Verilower.Bytecode.Body
import Verilower.Naming

namespace Verilower

/-- The name of a source local before clashes are resolved. Made-up names start with a dollar sign,
so leading ones are dropped. -/
def slotBase (source : String) : String :=
  match (sanitize source).toList.dropWhile (· = '$') with
  | [] => "local"
  | cs => String.ofList cs

/-- A name made from `base` that is not in `used`: `base` itself, or else the first of `base$index`,
`base$(index + 1)` and so on. One more candidate than there are used names is enough. -/
def freshName (base : String) (index : Nat) (used : List String) : String :=
  if used.contains base then
    let candidates := (List.range (used.length + 1)).map fun i =>
      base ++ "$" ++ toString (index + i)
    (candidates.find? fun name => !used.contains name).getD base
  else base

/-- Names for source locals in order, each different from those before it and from `used`. -/
def slotNames : (index : Nat) → (used : List String) → List String → List String
  | _, _, [] => []
  | index, used, source :: sources =>
    let name := freshName (slotBase source) index used
    name :: slotNames (index + 1) (name :: used) sources

structure LocalPool where
  /-- One per source local. -/
  slots : List Ivl.Ident := []
  /-- Those made up while lowering. -/
  temps : List Ivl.Ident := []
  /-- Whether the flag of exceptional returns is declared. -/
  flagged : Bool := false
deriving Inhabited

namespace LocalPool

def flag : Ivl.Ident := ⟨"$ex_return", .bool⟩

def ofSlots (slots : List Slot) : Except Refusal LocalPool := do
  let tys ← slots.mapM fun slot => slot.ty.lowered
  return { slots := (slotNames 0 [] (slots.map Slot.name)).zipWith Ivl.Ident.mk tys }

def slot (pool : LocalPool) (index : Nat) : Except Refusal Ivl.Ident :=
  match pool.slots[index]? with
  | some x => .ok x
  | none => .error (.undeclaredSlot index)

def fresh (pool : LocalPool) (ty : Ivl.Ty) : LocalPool × Ivl.Ident :=
  let x : Ivl.Ident := ⟨"$fakelocal_" ++ toString pool.temps.length, ty⟩
  ({ pool with temps := pool.temps ++ [x] }, x)

def declarations (pool : LocalPool) : List Ivl.Ident :=
  pool.slots ++ pool.temps ++ if pool.flagged then [flag] else []

end LocalPool

end Verilower
