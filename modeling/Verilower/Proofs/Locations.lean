import Verilower.Proofs.Devirtualization

namespace Verilower
set_option autoImplicit true

namespace Ivl

/-- What the selections of an expression start from. -/
def Expr.root : Expr → Expr
  | .select map _ => map.root
  | e => e

/-- The indices of the nested selections, the innermost ones first. -/
def Expr.path : Expr → List (List Expr)
  | .select map indices => map.path ++ [indices]
  | _ => []

namespace Interp

variable (I : Interp)

/-- What a map holds at the end of a path. -/
def lookup (m : I.Val) (path : List (List I.Val)) : I.Val := path.foldl I.select m

def update (m : I.Val) : List (List I.Val) → I.Val → I.Val
  | [], v => v
  | indices :: path, v => I.store m indices (update (I.select m indices) path v)

variable {I}

theorem lookup_append : I.lookup m (p ++ q) = I.lookup (I.lookup m p) q := List.foldl_append

theorem update_concat :
    I.update m (p ++ [indices]) v = I.update m p (I.store (I.lookup m p) indices v) := by
  induction p generalizing m with
  | nil => rfl
  | cons j p ih => exact congrArg (I.store m j) ih

theorem lookup_update_append : I.lookup (I.update m p v) (p ++ r) = I.lookup v r := by
  induction p generalizing m with
  | nil => rfl
  | cons j p ih =>
    change I.lookup (I.select (I.store m j _) j) (p ++ r) = _
    rw [I.select_store_same, ih]

theorem lookup_update_ne (hp : ¬ p <+: q) (hq : ¬ q <+: p) :
    I.lookup (I.update m p v) q = I.lookup m q := by
  induction p generalizing m q with
  | nil => exact absurd List.nil_prefix hp
  | cons i p ih =>
    cases q with
    | nil => exact absurd List.nil_prefix hq
    | cons j q =>
      change I.lookup (I.select (I.store m i _) j) q = I.lookup (I.select m j) q
      by_cases hij : i = j
      · subst hij
        rw [List.prefix_cons_inj] at hp hq
        rw [I.select_store_same, ih hp hq]
      · rw [I.select_store_ne hij]

/-- From one state to the other, the cell of `x` at the path is written with the value. Every cell
that is neither inside this one nor around it keeps what it holds, and so does every other
variable. -/
structure Writes (I : Interp) (σ : I.State) (x : Ident) (path : List (List I.Val)) (v : I.Val)
    (σ' : I.State) : Prop where
  cell : ∀ inner, I.lookup (σ' x) (path ++ inner) = I.lookup v inner
  other : ∀ q, ¬ path <+: q → ¬ q <+: path → I.lookup (σ' x) q = I.lookup (σ x) q
  rest : ∀ y, y ≠ x → σ' y = σ y

end Interp

theorem Expr.eval_eq_lookup {I : Interp} {σ : I.State} : ∀ e : Expr,
    e.eval I σ = I.lookup (e.root.eval I σ) (e.path.map (Expr.evalAll I σ))
  | .select map indices => by
    rw [Expr.path, List.map_append, Interp.lookup_append]
    exact congrArg (I.select · _) (eval_eq_lookup map)
  | .ident _ | .bool _ | .int _ | .real _ | .binary .. | .unary .. | .store .. | .apply .. => rfl

end Ivl

open Ivl

/-- Where the selections start from a variable, the variable is assigned its value with one cell
replaced. -/
theorem storeInto_of_root : ∀ {location v : Expr}, location.root = .ident x →
    ∃ e, storeInto location v = .ok (.assign x e) ∧ ∀ (I : Interp) (σ : I.State),
      e.eval I σ = I.update (σ x) (location.path.map (Expr.evalAll I σ)) (v.eval I σ)
  | .ident _, v, h => by
    cases h
    exact ⟨v, rfl, fun _ _ => rfl⟩
  | .select map indices, v, h => by
    have hroot : map.root = .ident x := h
    obtain ⟨e, he, heval⟩ := storeInto_of_root (v := .store map indices v) hroot
    refine ⟨e, he, fun I σ => ?_⟩
    have hmap : map.eval I σ = I.lookup (σ x) (map.path.map (Expr.evalAll I σ)) := by
      rw [Expr.eval_eq_lookup, hroot]
      rfl
    rw [heval, Expr.path, List.map_append, List.map_singleton, Interp.update_concat, ← hmap]
    rfl

theorem storeInto_of_not_root : ∀ {location v : Expr}, (∀ x, location.root ≠ .ident x) →
    storeInto location v = .error (.notALocation location.root)
  | .ident x, _, h => absurd rfl (h x)
  | .select map indices, v, h => by
    have hmap : storeInto map (.store map indices v) = .error (.notALocation map.root) :=
      storeInto_of_not_root h
    exact hmap
  | .bool _, _, _ | .int _, _, _ | .real _, _, _ | .binary .., _, _ | .unary .., _, _
  | .store .., _, _ | .apply .., _, _ => rfl

theorem Ivl.World.step_assign {W : World} {σ σ' : W.State} :
    W.Step σ (.assign x e :: ss) cs σ' ss' ↔
      cs = [] ∧ (σ' = fun y => if y = x then e.eval W.toInterp σ else σ y) ∧ ss' = ss := by
  constructor
  · rintro ⟨⟩
    exact ⟨rfl, rfl, rfl⟩
  · rintro ⟨rfl, rfl, rfl⟩
    exact .assign

/-- A store into a location is one assignment to its variable, which writes the cell that the
location denotes and nothing else. Any other target is refused, and no code is written. -/
theorem storeInto_writes_cell (location v : Expr) :
    (∀ x, location.root = .ident x → ∃ e, storeInto location v = .ok (.assign x e) ∧
      (∀ F s, (do Lower.emit (← Lower.decision (storeInto location v)) : Lower Unit) F s =
        Trace.pure ⟨(), s, [.plain (.assign x e)]⟩) ∧
      ∀ (W : World) (σ : W.State),
        location.eval W.toInterp σ =
          W.lookup (σ x) (location.path.map (Expr.evalAll W.toInterp σ)) ∧
        ∃ σ', W.Writes σ x (location.path.map (Expr.evalAll W.toInterp σ))
            (v.eval W.toInterp σ) σ' ∧
          ∀ ss cs τ ts, W.Step σ (.assign x e :: ss) cs τ ts ↔ cs = [] ∧ τ = σ' ∧ ts = ss) ∧
    ((∀ x, location.root ≠ .ident x) →
      storeInto location v = .error (.notALocation location.root) ∧
      ∀ F s, (do Lower.emit (← Lower.decision (storeInto location v)) : Lower Unit) F s =
        Trace.refuse (.notALocation location.root)) := by
  refine ⟨fun x hx => ?_, fun hx => ?_⟩
  · obtain ⟨e, he, heval⟩ := storeInto_of_root (v := v) hx
    refine ⟨e, he, fun F s => by rw [he]; rfl, fun W σ => ⟨?_, ?_⟩⟩
    · rw [Expr.eval_eq_lookup, hx]
      rfl
    · refine ⟨_, ⟨fun inner => ?_, fun q hp hq => ?_, fun y hy => if_neg hy⟩,
        fun ss cs τ ts => World.step_assign⟩
      · rw [if_pos rfl, heval, Interp.lookup_update_append]
      · rw [if_pos rfl, heval, Interp.lookup_update_ne hp hq]
  · have he := storeInto_of_not_root (v := v) hx
    exact ⟨he, fun F s => by rw [he]; rfl⟩

abbrev chart : Ident := ⟨"chart", .map [.ref] (.map [.int] .int)⟩

abbrev chartKey : Ident := ⟨"k", .ref⟩

abbrev chartRow : Expr := .select chart.expr [chartKey.expr]

/-- A cell of the chart whose second index is read from the chart itself. -/
abbrev chartCell : Expr := .select chartRow [.select chartRow [.int 0]]

/-- The cell gets the number, the cell that its index was read from stays as it is, and a store
under a truth value is refused. -/
theorem storeInto_writes_cell_chart :
    ∃ e, storeInto chartCell (.int 7) = .ok (.assign chart e) ∧
      (∃ σ', walkWorld.Step Free.name [.assign chart e] [] σ' [] ∧
        walkWorld.lookup (σ' chart) [[.name chartKey], [.name chart]] = .int 7 ∧
        walkWorld.lookup (σ' chart) [[.name chartKey], [.int 0]] = .name chart ∧
        σ' chartKey = .name chartKey) ∧
      storeInto (.select (.bool true) [chartKey.expr]) (.int 7) =
        .error (.notALocation (.bool true)) := by
  obtain ⟨e, he, -, hrun⟩ := (storeInto_writes_cell chartCell (.int 7)).1 chart rfl
  obtain ⟨-, σ', hw, hstep⟩ := hrun walkWorld Free.name
  refine ⟨e, he, ⟨σ', (hstep ..).2 ⟨rfl, rfl, rfl⟩, hw.cell [], ?_, hw.rest _ (by decide)⟩, ?_⟩
  · refine hw.other _ ?_ ?_ <;> simp [Expr.path, Expr.eval, Expr.evalAll, Ident.expr, Free.select]
  · exact ((storeInto_writes_cell _ _).2 fun x => by simp [Expr.root]).1

end Verilower
