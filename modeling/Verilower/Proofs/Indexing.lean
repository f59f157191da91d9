import Verilower.Proofs.Hierarchy
import Verilower.Proofs.Naming

namespace Verilower
set_option autoImplicit true

/-- Whether the classes that a type names exist. -/
def Ty.inRange (p : Program) : Ty → Bool
  | .cls id => id < p.classes.length
  | .array elem => elem.inRange p
  | _ => true

mutual

/-- Whether the fields, classes and methods that a value names exist, those of its parts included. -/
def Value.inRange (p : Program) : Value → Bool
  | .instanceField base field => base.inRange p && field < p.fields.length
  | .staticField field => field < p.fields.length
  | .element base index => base.inRange p && index.inRange p
  | .length base => base.inRange p
  | .binary _ lhs rhs => lhs.inRange p && rhs.inRange p
  | .neg arg => arg.inRange p
  | .cast arg ty | .instanceOf arg ty => arg.inRange p && ty.inRange p
  | .new id => id < p.classes.length
  | .newArray elem size => elem.inRange p && size.inRange p
  | .newMultiArray ty sizes => ty.inRange p && Value.allInRange p sizes
  | .invoke _ method (some base) args =>
    method < p.methods.length && base.inRange p && Value.allInRange p args
  | .invoke _ method none args => method < p.methods.length && Value.allInRange p args
  | _ => true

def Value.allInRange (p : Program) : List Value → Bool
  | [] => true
  | v :: vs => v.inRange p && Value.allInRange p vs

end

def Call.inRange (p : Program) (call : Call) : Bool :=
  call.method < p.methods.length && call.base.all (Value.inRange p) && call.args.all (Value.inRange p)

def Instr.inRange (p : Program) : Instr → Bool
  | .assign target v => target.inRange p && v.inRange p
  | .identity _ v | .branch v _ | .lookupSwitch v _ _ | .tableSwitch v _ _ _ | .ret v | .raise v
  | .enterMonitor v | .exitMonitor v => v.inRange p
  | .invoke call => call.inRange p
  | .goto _ | .retVoid | .nop | .breakpoint | .retSubroutine _ => true

/-- Whether all that a body names exists. -/
def Body.inRange (p : Program) (b : Body) : Bool :=
  b.method < p.methods.length && b.slots.all (fun slot => slot.ty.inRange p) &&
  b.nodes.all (fun node => node.instr.inRange p) &&
  b.traps.all (fun trap => trap.exception < p.classes.length)

def ClassDecl.inRange (p : Program) (c : ClassDecl) : Bool :=
  (c.superClass.toList ++ c.interfaces).all (· < p.classes.length) &&
  c.methods.all (· < p.methods.length) && c.fields.all (· < p.fields.length)

def Method.inRange (p : Program) (m : Method) : Bool :=
  m.owner < p.classes.length && m.returns.inRange p && m.params.all (Ty.inRange p) &&
  m.throws.all (· < p.classes.length)

def Field.inRange (p : Program) (f : Field) : Bool := f.owner < p.classes.length && f.ty.inRange p

/-- Whether all that the declarations of a program name exists. -/
def Program.inRange (p : Program) : Bool :=
  p.classes.all (ClassDecl.inRange p) && p.methods.all (Method.inRange p) &&
  p.fields.all (Field.inRange p)

theorem Call.inRange_iff {p : Program} {call : Call} : call.inRange p = true ↔
    call.method < p.methods.length ∧ (∀ base ∈ call.base, base.inRange p = true) ∧
      ∀ arg ∈ call.args, arg.inRange p = true := by
  simp [Call.inRange, and_assoc, Option.all_eq_true]

theorem Body.inRange_iff {p : Program} {b : Body} : b.inRange p = true ↔
    b.method < p.methods.length ∧ (∀ slot ∈ b.slots, slot.ty.inRange p = true) ∧
      (∀ node ∈ b.nodes, node.instr.inRange p = true) ∧
        ∀ trap ∈ b.traps, trap.exception < p.classes.length := by
  simp [Body.inRange, and_assoc]

theorem Method.inRange_iff {p : Program} {m : Method} : m.inRange p = true ↔
    m.owner < p.classes.length ∧ m.returns.inRange p = true ∧
      (∀ ty ∈ m.params, ty.inRange p = true) ∧ ∀ c ∈ m.throws, c < p.classes.length := by
  simp [Method.inRange, and_assoc]

theorem Program.inRange_iff {p : Program} : p.inRange = true ↔
    (∀ c ∈ p.classes, c.inRange p = true) ∧ (∀ m ∈ p.methods, m.inRange p = true) ∧
      ∀ f ∈ p.fields, f.inRange p = true := by
  simp [Program.inRange, and_assoc]

theorem entry_of_lt {table : List α} (h : i < table.length) :
    ∃ a ∈ table, entry table i = .ok a :=
  ⟨table[i], List.getElem_mem h, entry_eq_ok.2 (List.getElem?_eq_getElem h)⟩

theorem mapM_eq_ok_of_forall {f : α → Except ε β} {xs : List α} (h : ∀ a ∈ xs, ∃ b, f a = .ok b) :
    ∃ ys, xs.mapM f = .ok ys := by
  induction xs with
  | nil => exact ⟨[], rfl⟩
  | cons x xs ih =>
    obtain ⟨y, hy⟩ := h x List.mem_cons_self
    obtain ⟨ys, hys⟩ := ih fun a ha => h a (List.mem_cons_of_mem _ ha)
    refine ⟨y :: ys, ?_⟩
    rw [List.mapM_cons, hy, hys]
    rfl

theorem exists_of_mapM {f : α → Except ε β} {xs : List α} {ys : List β} (h : xs.mapM f = .ok ys)
    (ha : a ∈ xs) : ∃ b, f a = .ok b := by
  induction xs generalizing ys with
  | nil => cases ha
  | cons x xs ih =>
    rw [List.mapM_cons] at h
    obtain ⟨y, hy, h⟩ := except_bind_eq_ok.1 h
    obtain ⟨zs, hzs, -⟩ := except_bind_eq_ok.1 h
    obtain rfl | ha := List.mem_cons.1 ha
    · exact ⟨y, hy⟩
    · exact ih hzs ha

theorem tableValue_of_lt (h : offset < 2147483648) : tableValue low offset =
    if low.toInt + (offset : Int) ≤ 2147483647 then .ok (low.toInt + offset)
    else .error .addOverflow := by
  have hlow : -2147483648 ≤ low.toInt := low.le_toInt
  rw [tableValue, Int32.toInt_ofNat_of_lt h]
  congr 1
  simp only [eq_iff_iff, and_iff_right_iff_imp]
  omega

example : tableCases 2147483647 [0, 0] = .error .addOverflow := rfl

namespace Program

variable {p : Program}

end Program

/-- The answer is a type that names classes that exist, or it is that there is no type. -/
def Program.Answers (p : Program) (x : Except Fault (Option Ty)) : Prop :=
  ∃ found, x = .ok found ∧ ∀ ty ∈ found, ty.inRange p = true

end Verilower
