namespace Verilower.Ivl

inductive Ty where
  | int
  | bool
  | real
  | ref
  /-- Runtime type tags of objects. -/
  | tag
  /-- Heap fields that hold values of the given type. -/
  | field (value : Ty)
  | map (domain : List Ty) (range : Ty)
  /-- The object heap, polymorphic in the field that is read. -/
  | heap
deriving Inhabited

mutual

def Ty.same : Ty → Ty → Bool
  | .int, .int | .bool, .bool | .real, .real | .ref, .ref | .tag, .tag | .heap, .heap => true
  | .field a, .field b => a.same b
  | .map d r, .map d' r' => Ty.sameAll d d' && r.same r'
  | _, _ => false

def Ty.sameAll : List Ty → List Ty → Bool
  | [], [] => true
  | a :: as, b :: bs => a.same b && Ty.sameAll as bs
  | _, _ => false

end

mutual

theorem Ty.same_iff : ∀ a b : Ty, a.same b = true ↔ a = b
  | .int, b | .bool, b | .real, b | .ref, b | .tag, b | .heap, b => by cases b <;> simp [Ty.same]
  | .field a, b => by cases b <;> simp [Ty.same, Ty.same_iff a]
  | .map d r, b => by cases b <;> simp [Ty.same, Ty.sameAll_iff d, Ty.same_iff r]

theorem Ty.sameAll_iff : ∀ as bs : List Ty, Ty.sameAll as bs = true ↔ as = bs
  | [], bs => by cases bs <;> simp [Ty.sameAll]
  | a :: as, bs => by cases bs <;> simp [Ty.sameAll, Ty.same_iff a, Ty.sameAll_iff as]

end

instance : DecidableEq Ty := fun a b => decidable_of_iff _ (Ty.same_iff a b)

mutual

def Ty.render : Ty → String
  | .int => "int"
  | .bool => "bool"
  | .real => "real"
  | .ref => "ref"
  | .tag => "javaType"
  | .field value => "Field " ++ value.render
  | .map domain range => "[" ++ ", ".intercalate (Ty.renderAll domain) ++ "]" ++ range.render
  | .heap => "<x>[ref, Field x]x"

def Ty.renderAll : List Ty → List String
  | [] => []
  | ty :: tys => ty.render :: Ty.renderAll tys

end

mutual

def Ty.spell : Ty → String
  | .int => "Int"
  | .bool => "Bool"
  | .real => "Real"
  | .ref => "Ref"
  | .tag => "TypeTag"
  | .field value => "Field(" ++ value.spell ++ ")"
  | .map domain range =>
    "Map([" ++ ", ".intercalate (Ty.spellAll domain) ++ "], " ++ range.spell ++ ")"
  | .heap => "Heap"

def Ty.spellAll : List Ty → List String
  | [] => []
  | ty :: tys => ty.spell :: Ty.spellAll tys

end

end Verilower.Ivl
