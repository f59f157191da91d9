import Verilower.Proofs.Lowering.Meaning

namespace Verilower
set_option autoImplicit true

theorem except_bind_eq_ok {x : Except ε α} {f : α → Except ε β} :
    (x >>= f) = .ok b ↔ ∃ a, x = .ok a ∧ f a = .ok b := by
  cases x <;> simp [Bind.bind, Except.bind]

theorem except_bind_eq_error {x : Except ε α} {f : α → Except ε β} :
    (x >>= f) = .error e ↔ x = .error e ∨ ∃ a, x = .ok a ∧ f a = .error e := by
  cases x <;> simp [Bind.bind, Except.bind]

theorem except_check_eq_error {c : Prop} [Decidable c] {e : ε} {f : Unit → Except ε α} :
    (if c then (throw e : Except ε Unit) >>= f else f ()) = .error e' ↔
      c ∧ e = e' ∨ ¬ c ∧ f () = .error e' := by
  split <;> simp_all [Bind.bind, Except.bind, throw, throwThe, MonadExceptOf.throw]

theorem exists_of_isOk {x : Except ε α} (h : x.isOk = true) : ∃ a, x = .ok a := by
  cases x with
  | error => cases h
  | ok a => exact ⟨a, rfl⟩

theorem exists_of_toOption_map {x : Except ε α} {f : α → β} (h : x.toOption.map f = some b) :
    ∃ a, x = .ok a ∧ f a = b := by
  cases x with
  | error => cases h
  | ok a => exact ⟨a, rfl, Option.some.inj h⟩

theorem mapM_eq_ok_map {f : α → Except ε β} {g : β → γ} {k : α → γ}
    (hf : ∀ a b, f a = .ok b → g b = k a) {xs : List α} {ys : List β} (h : xs.mapM f = .ok ys) :
    ys.map g = xs.map k := by
  induction xs generalizing ys with
  | nil =>
    cases h
    rfl
  | cons x xs ih =>
    rw [List.mapM_cons] at h
    obtain ⟨y, hy, h₁⟩ := except_bind_eq_ok.1 h
    obtain ⟨zs, hz, h₂⟩ := except_bind_eq_ok.1 h₁
    cases h₂
    rw [List.map_cons, List.map_cons, hf x y hy, ih hz]

theorem mem_of_mapM_eq_ok {f : α → Except ε β} {xs : List α} {ys : List β}
    (h : xs.mapM f = .ok ys) (hy : y ∈ ys) : ∃ x ∈ xs, f x = .ok y := by
  induction xs generalizing ys with
  | nil =>
    cases h
    cases hy
  | cons x xs ih =>
    rw [List.mapM_cons] at h
    obtain ⟨z, hz, h₁⟩ := except_bind_eq_ok.1 h
    obtain ⟨zs, hzs, h₂⟩ := except_bind_eq_ok.1 h₁
    cases h₂
    obtain rfl | hy := List.mem_cons.1 hy
    · exact ⟨x, List.mem_cons_self, hz⟩
    · obtain ⟨w, hw, hf⟩ := ih hzs hy
      exact ⟨w, List.mem_cons_of_mem _ hw, hf⟩

theorem forall₂_of_mapM_eq_ok {f : α → Except ε β} {xs : List α} {ys : List β}
    (h : xs.mapM f = .ok ys) : List.Forall₂ (fun x y => f x = .ok y) xs ys := by
  induction xs generalizing ys with
  | nil =>
    cases h
    exact .nil
  | cons x xs ih =>
    rw [List.mapM_cons] at h
    obtain ⟨y, hy, h₁⟩ := except_bind_eq_ok.1 h
    obtain ⟨zs, hz, h₂⟩ := except_bind_eq_ok.1 h₁
    cases h₂
    exact .cons hy (ih hz)

theorem entry_eq_ok {table : List α} : entry table i = .ok a ↔ table[i]? = some a := by
  unfold entry
  split <;> simp_all

theorem Prelude.coerce_eq_ok : Prelude.coerce e ty = .ok o ↔
    ∃ source, e.ty = .ok source ∧ Prelude.convert source ty e = o := by
  simp [Prelude.coerce, except_bind_eq_ok, Pure.pure, Except.pure]

theorem Program.tag_ty {p : Program} (h : p.tag ty = .ok x) : x.ty = .tag := by
  obtain ⟨name, -, hx⟩ := except_bind_eq_ok.1 h
  cases hx
  rfl

theorem Program.tag_cls {p : Program} : p.tag (.cls i) = .ok τ ↔
    ∃ c, p.classes[i]? = some c ∧ τ = ⟨"$type_" ++ sanitize c.name, .tag⟩ := by
  simp only [Program.tag, Program.tagName, Program.fragment, Program.typeName, Program.class?, entry]
  cases p.classes[i]? <;> simp [Bind.bind, Except.bind, Pure.pure, Except.pure, eq_comm]

theorem mapError_eq_ok {x : Except ε α} {f : ε → ε'} : x.mapError f = .ok a ↔ x = .ok a := by
  cases x <;> simp [Except.mapError]

theorem Program.fieldIdent_eq_ok {p : Program} {i : FieldId} : p.fieldIdent i = .ok x ↔
    ∃ f t, p.fields[i]? = some f ∧ f.ty.lowered = .ok t ∧
      x = ⟨p.fieldIdentName f, if f.isStatic then t else .field t⟩ := by
  simp only [Program.fieldIdent, Program.field?, except_bind_eq_ok, mapError_eq_ok, entry_eq_ok]
  constructor
  · rintro ⟨f, hf, t, ht, hx⟩
    cases hx
    exact ⟨f, t, hf, ht, rfl⟩
  · rintro ⟨f, t, hf, ht, rfl⟩
    exact ⟨f, hf, t, ht, rfl⟩

theorem Program.dot_mem_fieldIdent {p : Program} {i : FieldId} (h : p.fieldIdent i = .ok x) :
    '.' ∈ x.name.toList := by
  obtain ⟨f, t, -, -, rfl⟩ := fieldIdent_eq_ok.1 h
  simp [fieldIdentName, fieldName, sanitize, isIdentChar]

theorem Program.fieldIdent_instance {p : Program} {i : FieldId} (hf : p.fields[i]? = some f)
    (hs : f.isStatic = false) (h : p.fieldIdent i = .ok x) : ∃ t, x.ty = .field t := by
  obtain ⟨g, t, hg, -, rfl⟩ := fieldIdent_eq_ok.1 h
  cases hf.symm.trans hg
  exact ⟨t, by simp [hs]⟩

theorem Program.fieldIdent_static {p : Program} {i : FieldId} (h : p.fieldIdent i = .ok x)
    (ht : ∀ t, x.ty ≠ .field t) : ∃ f, p.fields[i]? = some f ∧ f.isStatic = true ∧
      f.ty.lowered = .ok x.ty := by
  obtain ⟨f, t, hf, hlow, rfl⟩ := fieldIdent_eq_ok.1 h
  cases hs : f.isStatic with
  | true => exact ⟨f, hf, hs, by simpa [hs] using hlow⟩
  | false => exact absurd (by simp [hs]) (ht t)

/-- The trace succeeds with the value and leaves the journal. -/
def Trace.Gives (t : Trace α) (a : α) (j : List Event) : Prop := t = ⟨j, .ok a⟩

namespace Trace

theorem gives_of_result {t : Trace α} (h : t.result = .ok a) : t.Gives a t.journal := by
  obtain ⟨j, r⟩ := t
  exact congrArg (Trace.mk j) h

@[simp] theorem gives_pure {a b : α} : (Pure.pure a : Trace α).Gives b j ↔ b = a ∧ j = [] := by
  simp [Gives, Pure.pure, Trace.pure, eq_comm, and_comm]

@[simp] theorem gives_bind {x : Trace α} {f : α → Trace β} :
    (x >>= f).Gives b j ↔ ∃ a j₁ j₂, x.Gives a j₁ ∧ (f a).Gives b j₂ ∧ j = j₁ ++ j₂ := by
  obtain ⟨j₁, e | a⟩ := x
  · simp [Gives, Bind.bind, Trace.bind]
  · rcases hf : f a with ⟨j₂, e | c⟩ <;>
      simp [Gives, Bind.bind, Trace.bind, Trace.after, hf, eq_comm, and_comm]

@[simp] theorem gives_map {x : Trace α} {f : α → β} :
    (f <$> x).Gives b j ↔ ∃ a, b = f a ∧ x.Gives a j := by
  rw [← bind_pure_comp, gives_bind]
  constructor
  · rintro ⟨a, j₁, _, hx, h, rfl⟩
    obtain ⟨rfl, rfl⟩ := gives_pure.1 h
    exact ⟨a, rfl, by simpa using hx⟩
  · rintro ⟨a, rfl, hx⟩
    exact ⟨a, j, [], hx, gives_pure.2 ⟨rfl, rfl⟩, by simp⟩

@[simp] theorem gives_emit : (emit e).Gives u j ↔ u = () ∧ j = [e] := by
  simp [Gives, emit, eq_comm]

@[simp] theorem not_gives_fail : ¬ (fail e : Trace α).Gives a j := by
  simp [Gives, fail]

@[simp] theorem not_gives_refuse : ¬ (refuse c : Trace α).Gives a j := not_gives_fail

@[simp] theorem gives_ofExcept {x : Except Failure α} :
    (ofExcept x).Gives a j ↔ x = .ok a ∧ j = [] := by
  cases x <;> simp [Gives, ofExcept, eq_comm, and_comm]

@[simp] theorem gives_promise {x : Except Fault α} :
    (promise x).Gives a j ↔ x = .ok a ∧ j = [] := by
  cases x <;> simp [promise, Except.mapError]

@[simp] theorem gives_decision {x : Except Refusal α} :
    (decision x).Gives a j ↔ x = .ok a ∧ j = [] := by
  cases x <;> simp [decision, Except.mapError]

@[simp] theorem gives_within {x : Trace α} : (x.within c).Gives a j ↔ x.Gives a j := by
  obtain ⟨j₁, e | b⟩ := x <;> simp [Gives, within, Except.mapError]

@[simp] theorem gives_tag : (tag p ty).Gives x j ↔ p.tag ty = .ok x ∧ j = [.tag ty] := by
  simp [tag]

@[simp] theorem gives_field {i : FieldId} :
    (field p i).Gives x j ↔ p.fieldIdent i = .ok x ∧ j = [.field i] := by
  simp [field]

@[simp] theorem gives_label : (label m n).Gives x j ↔ x = labelName m n ∧ j = [.label m n] := by
  simp [label]

@[simp] theorem gives_freshGlobal : (freshGlobal n ty).Gives x j ↔
    x = globalIdent n ty ∧ j = [.global (globalIdent n ty)] := by
  simp [freshGlobal]

@[simp] theorem gives_signature {i : MethodId} : (signature p q i).Gives x j ↔
    (Signature.build p q i).result = .ok x ∧ j = [.signature i] := by
  simp [signature]

end Trace

/-- All events of the trace, whatever its result is. -/
def Trace.Records (P : Event → Prop) (t : Trace α) : Prop := ∀ e ∈ t.journal, P e

namespace Trace

variable {P : Event → Prop}

theorem records_pure {a : α} : (Pure.pure a : Trace α).Records P := nofun

theorem Records.bind {x : Trace α} {f : α → Trace β} (hx : x.Records P)
    (hf : ∀ a, (f a).Records P) : (x >>= f).Records P := by
  obtain ⟨j, e | a⟩ := x
  · exact hx
  · intro e he
    obtain he | he := List.mem_append.1 he
    · exact hx e he
    · exact hf a e he

theorem records_ofExcept {x : Except Failure α} : (ofExcept x).Records P := nofun

theorem records_emit (h : P e) : (emit e).Records P := fun _ he => List.mem_singleton.1 he ▸ h

theorem records_field {i : FieldId} (h : P (.field i)) : (field p i).Records P :=
  records_ofExcept.bind fun _ => (records_emit h).bind fun _ => records_pure

end Trace

/-- The computation succeeds from `s` with what it emits and leaves the journal. -/
def Lower.Gives (x : Lower α) (F : Frame) (s : Scratch) (r : Emitted α) (j : List Event) : Prop :=
  (x F s).Gives r j

namespace Lower

@[simp] theorem gives_pure {a : α} :
    (Pure.pure a : Lower α).Gives F s r j ↔ r = ⟨a, s, []⟩ ∧ j = [] :=
  Trace.gives_pure

@[simp] theorem gives_bind {x : Lower α} {f : α → Lower β} :
    (x >>= f).Gives F s r j ↔ ∃ r₁ j₁ r₂ j₂, x.Gives F s r₁ j₁ ∧
      (f r₁.value).Gives F r₁.scratch r₂ j₂ ∧
      r = ⟨r₂.value, r₂.scratch, r₁.code ++ r₂.code⟩ ∧ j = j₁ ++ j₂ := by
  simp only [Gives, bind_apply, Trace.andThen, Trace.gives_bind, Trace.gives_pure]
  constructor
  · rintro ⟨r₁, j₁, _, hx, ⟨r₂, j₂, _, hf, ⟨rfl, rfl⟩, rfl⟩, rfl⟩
    exact ⟨r₁, j₁, r₂, j₂, hx, hf, rfl, by simp⟩
  · rintro ⟨r₁, j₁, r₂, j₂, hx, hf, rfl, rfl⟩
    exact ⟨r₁, j₁, j₂, hx, ⟨r₂, j₂, [], hf, ⟨rfl, rfl⟩, by simp⟩, rfl⟩

@[simp] theorem gives_ofExcept {x : Except Failure α} :
    (ofExcept x).Gives F s r j ↔ ∃ a, x = .ok a ∧ r = ⟨a, s, []⟩ ∧ j = [] := by
  cases x with
  | error => exact ⟨fun h => absurd h Trace.not_gives_fail, nofun⟩
  | ok a =>
    refine gives_pure.trans ⟨fun h => ⟨a, rfl, h⟩, ?_⟩
    rintro ⟨_, ⟨⟩, h⟩
    exact h

@[simp] theorem gives_promise {x : Except Fault α} :
    (promise x).Gives F s r j ↔ ∃ a, x = .ok a ∧ r = ⟨a, s, []⟩ ∧ j = [] := by
  simp [promise, mapError_eq_ok]

@[simp] theorem gives_decision {x : Except Refusal α} :
    (decision x).Gives F s r j ↔ ∃ a, x = .ok a ∧ r = ⟨a, s, []⟩ ∧ j = [] := by
  simp [decision, mapError_eq_ok]

theorem gives_command {c : Command α} :
    (command c).Gives F s r j ↔ (c.trace F s).Gives r j := by
  rw [Gives, command_apply]

@[simp] theorem gives_frame : frame.Gives F s r j ↔ r = ⟨F, s, []⟩ ∧ j = [] :=
  gives_command.trans Trace.gives_pure

@[simp] theorem gives_receivers : receivers.Gives F s r j ↔ r = ⟨s.receivers, s, []⟩ ∧ j = [] :=
  gives_command.trans Trace.gives_pure

@[simp] theorem gives_bindReceiver : (bindReceiver i).Gives F s r j ↔
    r = ⟨(), { s with receivers := i :: s.receivers }, []⟩ ∧ j = [] :=
  gives_command.trans Trace.gives_pure

@[simp] theorem gives_emit : (emit st).Gives F s r j ↔ r = ⟨(), s, [.plain st]⟩ ∧ j = [] :=
  gives_command.trans Trace.gives_pure

@[simp] theorem gives_oblige : (oblige o).Gives F s r j ↔ r = ⟨(), s, [.oblige o]⟩ ∧ j = [] :=
  gives_command.trans Trace.gives_pure

@[simp] theorem gives_obligeAll : (obligeAll os).Gives F s r j ↔
    r = ⟨(), s, os.map .oblige⟩ ∧ j = [] := by
  induction os generalizing r j with
  | nil => exact gives_pure
  | cons o os ih => simp [obligeAll, ih, and_comm]

@[simp] theorem gives_when {body : Lower Unit} {condition : Lower Ivl.Expr} :
    (when body condition).Gives F s r j ↔ ∃ r₁ j₁ r₂ j₂, body.Gives F s r₁ j₁ ∧
      condition.Gives F r₁.scratch r₂ j₂ ∧
      r = ⟨(), r₂.scratch, r₂.code ++ [.when r₂.value r₁.code]⟩ ∧ j = j₁ ++ j₂ := by
  simp only [Gives, when_apply, branched, Trace.gives_bind, Trace.gives_pure]
  constructor
  · rintro ⟨r₁, j₁, _, hx, ⟨r₂, j₂, _, hc, ⟨rfl, rfl⟩, rfl⟩, rfl⟩
    exact ⟨r₁, j₁, r₂, j₂, hx, hc, rfl, by simp⟩
  · rintro ⟨r₁, j₁, r₂, j₂, hx, hc, rfl, rfl⟩
    exact ⟨r₁, j₁, j₂, hx, ⟨r₂, j₂, [], hc, ⟨rfl, rfl⟩, by simp⟩, rfl⟩

@[simp] theorem not_gives_refuse : ¬ (refuse c : Lower α).Gives F s r j := Trace.not_gives_fail

/-- A step that only asks passes the answer on and leaves nothing else behind. -/
theorem gives_ask {c : Command α} {t : Trace α} (h : c.trace F s = return ⟨← t, s, []⟩) :
    (command c).Gives F s r j ↔ ∃ a, r = ⟨a, s, []⟩ ∧ t.Gives a j := by
  rw [gives_command, h, bind_pure_comp, Trace.gives_map]

@[simp] theorem gives_request {q : Request α} : (request q).Gives F s r j ↔
    ∃ a, r = ⟨a, s, []⟩ ∧ (q.trace F.program).Gives a j := gives_ask rfl

@[simp] theorem gives_slot {i : Nat} : (slot i).Gives F s r j ↔
    ∃ x, s.pool.slot i = .ok x ∧ r = ⟨x, s, []⟩ ∧ j = [] := by
  rw [slot, gives_ask rfl]
  simp [and_assoc, and_left_comm, and_comm]

@[simp] theorem gives_fresh : (fresh ty).Gives F s r j ↔
    r = ⟨(s.pool.fresh ty).2, { s with pool := (s.pool.fresh ty).1 }, []⟩ ∧ j = [] :=
  gives_command.trans Trace.gives_pure

@[simp] theorem gives_freshGlobal : (freshGlobal ty).Gives F s r j ↔
    r = ⟨globalIdent s.globals ty, { s with globals := s.globals + 1 }, []⟩ ∧
      j = [.global (globalIdent s.globals ty)] := by
  rw [freshGlobal, gives_command]
  simp [Command.trace]

@[simp] theorem gives_tag : (tag ty).Gives F s r j ↔
    ∃ x, F.program.tag ty = .ok x ∧ r = ⟨x.expr, s, []⟩ ∧ j = [.tag ty] := by
  simp [tag, Request.trace, and_assoc, and_comm, and_left_comm]

@[simp] theorem gives_field {i : FieldId} : (field i).Gives F s r j ↔
    ∃ x, F.program.fieldIdent i = .ok x ∧ r = ⟨x, s, []⟩ ∧ j = [.field i] := by
  simp [field, Request.trace, and_assoc, and_comm]

@[simp] theorem gives_label {n : Nat} : (label n).Gives F s r j ↔
    r = ⟨labelName F.body.method n, s, []⟩ ∧ j = [.label F.body.method n] := by
  simp [label, Request.trace]

@[simp] theorem gives_signature {i : MethodId} : (signature i).Gives F s r j ↔
    ∃ x, (Signature.build F.program F.prelude i).result = .ok x ∧ r = ⟨x, s, []⟩ ∧
      j = [.signature i] := by
  rw [signature, gives_ask rfl]
  simp [and_assoc, and_comm]

@[simp] theorem gives_diagnose {n : Nat} : (diagnose level n m).Gives F s r j ↔
    r = ⟨(), s, []⟩ ∧ j = [.diagnostic ⟨level, F.body.locOf n, m⟩] := by
  have hu : (∃ u : Unit, r = ⟨u, s, []⟩) ↔ r = ⟨(), s, []⟩ := ⟨fun ⟨_, h⟩ => h, fun h => ⟨_, h⟩⟩
  simp [diagnose, Request.trace, hu, and_comm]

@[simp] theorem gives_log : (log level m).Gives F s r j ↔
    r = ⟨(), s, []⟩ ∧ j = [.log ⟨level, m⟩] := by
  have hu : (∃ u : Unit, r = ⟨u, s, []⟩) ↔ r = ⟨(), s, []⟩ := ⟨fun ⟨_, h⟩ => h, fun h => ⟨_, h⟩⟩
  simp [log, Request.trace, hu]

@[simp] theorem gives_methodName : methodName.Gives F s r j ↔
    r = ⟨F.program.methodName F.method, s, []⟩ ∧ j = [] := by
  simp [methodName, and_comm]

@[simp] theorem gives_typeOf : (typeOf e).Gives F s r j ↔
    ∃ ty, e.ty = .ok ty ∧ r = ⟨ty, s, []⟩ ∧ j = [] := by
  exact gives_promise

@[simp] theorem gives_coerce : (coerce e ty).Gives F s r j ↔
    ∃ e', Prelude.coerce e ty = .ok (some e') ∧ r = ⟨e', s, []⟩ ∧ j = [] := by
  simp only [coerce, gives_bind, gives_typeOf, Prelude.coerce_eq_ok]
  constructor
  · rintro ⟨_, _, r₂, j₂, ⟨source, he, rfl, rfl⟩, h, rfl, rfl⟩
    cases hc : Prelude.convert source ty e <;> simp only [hc, gives_pure, not_gives_refuse] at h
    obtain ⟨rfl, rfl⟩ := h
    exact ⟨_, ⟨source, he, hc⟩, rfl, rfl⟩
  · rintro ⟨e', ⟨source, he, hc⟩, rfl, rfl⟩
    exact ⟨_, _, ⟨e', s, []⟩, [], ⟨source, he, rfl, rfl⟩, by simp [hc], rfl, rfl⟩

/-- A computation that only reads passes its value on and leaves nothing else behind. -/
theorem gives_silent_bind {x : Lower α} {f : α → Lower β} {P : α → Prop}
    (hx : ∀ r j, x.Gives F s r j ↔ ∃ a, P a ∧ r = ⟨a, s, []⟩ ∧ j = []) :
    (x >>= f).Gives F s r j ↔ ∃ a, P a ∧ (f a).Gives F s r j := by
  rw [gives_bind]
  constructor
  · rintro ⟨r₁, j₁, r₂, j₂, h, hf, rfl, rfl⟩
    obtain ⟨a, ha, rfl, rfl⟩ := (hx r₁ j₁).1 h
    exact ⟨a, ha, hf⟩
  · rintro ⟨a, ha, hf⟩
    exact ⟨⟨a, s, []⟩, [], r, j, (hx _ _).2 ⟨a, ha, rfl, rfl⟩, hf, rfl, rfl⟩

theorem gives_frame_bind {f : Frame → Lower α} :
    (frame >>= f).Gives F s r j ↔ (f F).Gives F s r j := by
  rw [gives_silent_bind (P := (· = F)) (by simp)]
  simp

theorem gives_methodName_bind {f : String → Lower α} : (methodName >>= f).Gives F s r j ↔
    (f (F.program.methodName F.method)).Gives F s r j := by
  rw [gives_silent_bind (P := (· = F.program.methodName F.method)) (by simp)]
  simp

theorem gives_promise_bind {x : Except Fault α} {f : α → Lower β} :
    (promise x >>= f).Gives F s r j ↔ ∃ a, x = .ok a ∧ (f a).Gives F s r j :=
  gives_silent_bind fun _ _ => gives_promise

theorem gives_decision_bind {x : Except Refusal α} {f : α → Lower β} :
    (decision x >>= f).Gives F s r j ↔ ∃ a, x = .ok a ∧ (f a).Gives F s r j :=
  gives_silent_bind fun _ _ => gives_decision

theorem gives_check [Decidable c] {k : Unit → Lower α} :
    (if c then refuse e >>= k else k ()).Gives F s r j ↔ ¬ c ∧ (k ()).Gives F s r j := by
  by_cases h : c <;> simp [h]

theorem gives_slot_bind {i : Nat} {f : Ivl.Ident → Lower α} : (slot i >>= f).Gives F s r j ↔
    ∃ x, s.pool.slot i = .ok x ∧ (f x).Gives F s r j :=
  gives_silent_bind (fun _ _ => gives_slot)

theorem gives_typeOf_bind {f : Ivl.Ty → Lower α} : (typeOf e >>= f).Gives F s r j ↔
    ∃ ty, e.ty = .ok ty ∧ (f ty).Gives F s r j :=
  gives_silent_bind (fun _ _ => gives_typeOf)

theorem gives_coerce_bind {f : Ivl.Expr → Lower α} : (coerce e ty >>= f).Gives F s r j ↔
    ∃ e', Prelude.coerce e ty = .ok (some e') ∧ (f e').Gives F s r j :=
  gives_silent_bind (fun _ _ => gives_coerce)

/-- What stands in front of every return: one obligation per postcondition. -/
def exitCode (F : Frame) : List Outline :=
  F.signature.procedure.postconditions.map (fun e => Outline.oblige (.postcondition e)) ++
    [.plain .ret]

@[simp] theorem gives_leave : leave.Gives F s r j ↔ r = ⟨(), s, exitCode F⟩ ∧ j = [] := by
  simp [leave, enforcePostconditions, exitCode, Function.comp_def, and_comm]

end Lower

end Verilower
