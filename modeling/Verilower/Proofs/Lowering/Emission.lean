import Verilower.Proofs.Lowering.Sources

namespace Verilower
set_option autoImplicit true

open Ivl

/-- Statements that leave all variables alone. -/
inductive Ivl.Stmt.Passive : Stmt → Prop
  | assume : Passive (.assume e)
  | label : Passive (.label l)
  | goto : Passive (.goto ls)
  | ret : Passive .ret
  | ite (ha : ∀ s ∈ a, Passive s) (hb : ∀ s ∈ b, Passive s) : Passive (.ite c a b)

def Ivl.Expr.isNegation : Expr → Bool
  | .unary .not _ => true
  | _ => false

mutual

/-- The types of the objects that a value asks for, in order. -/
def Value.requests : Value → List Ty
  | .constant (.string _) => [.cls ClassId.string]
  | .instanceField base _ | .length base => base.requests
  | .neg arg | .cast arg _ | .instanceOf arg _ => arg.requests
  | .element base index => base.requests ++ index.requests
  | .binary _ lhs rhs => lhs.requests ++ rhs.requests
  | .new id => [.cls id]
  | .newArray elem size => size.requests ++ [.array elem]
  | .newMultiArray ty sizes => Value.requestsAll sizes ++ [ty]
  | .invoke _ _ (some base) args => base.requests ++ Value.requestsAll args
  | .invoke _ _ none args => Value.requestsAll args
  | _ => []

def Value.requestsAll : List Value → List Ty
  | [] => []
  | v :: vs => v.requests ++ Value.requestsAll vs

end

theorem Value.requestsAll_append :
    Value.requestsAll (vs ++ ws) = Value.requestsAll vs ++ Value.requestsAll ws := by
  induction vs with
  | nil => rfl
  | cons v vs ih => simp [Value.requestsAll, ih]

def Call.requests (call : Call) : List Ty := Value.requestsAll (call.base.toList ++ call.args)

theorem Value.requests_invoke :
    (Value.invoke kind m base args).requests = Call.requests ⟨kind, m, base, args⟩ := by
  cases base <;> simp [Value.requests, Call.requests, Value.requestsAll]

/-- The types of the objects that an instruction asks for, in order. -/
def Instr.requests : Instr → List Ty
  | .assign target value => value.requests ++ target.requests
  | .invoke call => call.requests
  | .branch value _ | .lookupSwitch value _ _ | .tableSwitch value _ _ _ | .ret value
  | .raise value | .enterMonitor value | .exitMonitor value => value.requests
  | .identity _ _ | .goto _ | .retVoid | .nop | .breakpoint | .retSubroutine _ => []

namespace Lower

/-- Code made of blocks. `V` holds of the variables that it may assign, apart from the heap, and `ts`
has the types of the objects that it allocates, in order, and maybe more. -/
inductive Emits (F : Frame) (V : Ident → Prop) : List Ty → List Outline → Prop
  | nil : Emits F V [] []
  | append (ha : Emits F V ts as) (hb : Emits F V us bs) : Emits F V (ts ++ us) (as ++ bs)
  | weaken (h : Emits F V ts os) (hs : ts.Sublist us) : Emits F V us os
  | passive (hs : s.Passive) : Emits F V [] [.plain s]
  | oblige (v : Violation) (e : Expr) : Emits F V [] [.oblige ⟨v, some e⟩]
  | unexpected : Emits F V [] [.oblige ⟨.unexpected, none⟩]
  | assign (hx : V x) : Emits F V [] [.plain (.assign x e)]
  | fieldStore (hx : F.program.fieldIdent i = .ok x) (ht : x.ty = .field t) :
      Emits F V [] [.plain (Prelude.write b x e)]
  | object (hx : V x) (ht : F.program.tag ty = .ok τ) : Emits F V [ty] (newObject x τ)
  | call (ho : ∀ x ∈ outs, V x) : Emits F V [] [.plain (.call f actuals outs)]
  | when (hc : c.isNegation = false) (hb : Emits F V ts body) : Emits F V ts [.when c body]

/-- The variables that code with the journal and the final state assigns. -/
structure Admits (V : Ident → Prop) (F : Frame) (s : Scratch) (j : List Event) : Prop where
  pool : ∀ x ∈ s.pool.vars, V x
  exception : V F.signature.exception
  result : ∀ x, F.signature.result = some x → V x
  maps : ∀ x ∈ Prelude.globals, x ≠ Prelude.heap → V x
  static : ∀ i x, F.program.fieldIdent i = .ok x → (∀ t, x.ty ≠ .field t) → V x
  global : ∀ n, .global (globalIdent n .ref) ∈ j → V (globalIdent n .ref)

variable {V : Ident → Prop}

theorem Admits.left (h : Admits V F s (j ++ j')) : Admits V F s j :=
  { h with global := fun n hn => h.global n (List.mem_append_left _ hn) }

theorem Admits.right (h : Admits V F s (j ++ j')) : Admits V F s j' :=
  { h with global := fun n hn => h.global n (List.mem_append_right _ hn) }

/-- What may be assigned in a state may be assigned in every earlier one. -/
theorem Admits.earlier (h : Admits V F s' j) (hs : ∀ x ∈ s.pool.vars, x ∈ s'.pool.vars) :
    Admits V F s j :=
  { h with pool := fun x hx => h.pool x (hs x hx) }

theorem Admits.and {V' : Ident → Prop} (h : Admits V F s j) (h' : Admits V' F s j) :
    Admits (fun x => V x ∧ V' x) F s j where
  pool x hx := ⟨h.pool x hx, h'.pool x hx⟩
  exception := ⟨h.exception, h'.exception⟩
  result x hx := ⟨h.result x hx, h'.result x hx⟩
  maps x hx hne := ⟨h.maps x hx hne, h'.maps x hx hne⟩
  static i x hx ht := ⟨h.static i x hx ht, h'.static i x hx ht⟩
  global n hn := ⟨h.global n hn, h'.global n hn⟩

theorem Admits.mono {V' : Ident → Prop} (h : Admits V F s j) (hV : ∀ x, V x → V' x) :
    Admits V' F s j where
  pool x hx := hV x (h.pool x hx)
  exception := hV _ h.exception
  result x hx := hV x (h.result x hx)
  maps x hx hne := hV x (h.maps x hx hne)
  static i x hx ht := hV x (h.static i x hx ht)
  global n hn := hV _ (h.global n hn)

theorem Admits.arraySize (h : Admits V F s j) : V Prelude.arraySize :=
  h.maps _ (by simp [Prelude.globals]) (by decide)

theorem Admits.stringSize (h : Admits V F s j) : V Prelude.stringSize :=
  h.maps _ (by simp [Prelude.globals]) (by decide)

theorem Admits.arrays (h : Admits V F s j) (hx : Prelude.arrays? ty = some x) : V x := by
  apply h.maps
  · cases ty <;> cases hx <;> simp [Prelude.globals]
  · cases ty <;> cases hx <;> decide

namespace Emits

theorem cons (ho : Emits F V [] [o]) (hos : Emits F V ts os) : Emits F V ts (o :: os) := ho.append hos

theorem trail (ha : Emits F V ts as) (hb : Emits F V [] bs) : Emits F V ts (as ++ bs) :=
  List.append_nil ts ▸ ha.append hb

theorem of_forall (h : ∀ o ∈ os, Emits F V [] [o]) : Emits F V [] os := by
  induction os with
  | nil => exact .nil
  | cons o os ih =>
    have ho := h o List.mem_cons_self
    have hos := ih fun o' ho' => h o' (List.mem_cons_of_mem _ ho')
    exact ho.cons hos

end Emits

theorem emits_nullGuard : Emits F V [] (nullGuard s base e) := by
  unfold nullGuard
  split
  · exact .nil
  · exact .oblige _ _

theorem emits_storeGuard : Emits F V [] (storeGuard f e) := by
  unfold storeGuard
  split
  · exact .oblige _ _
  · exact .nil

theorem emits_exitCode : Emits F V [] (exitCode F) := by
  apply Emits.trail
  · apply Emits.of_forall
    intro o ho
    obtain ⟨e, -, rfl⟩ := List.mem_map.1 ho
    exact .oblige _ _
  · exact .passive .ret

theorem emits_jumpWhen : Emits F V [] [.plain (.when c [.jump l])] := by
  apply Emits.passive
  apply Stmt.Passive.ite
  · intro s hs
    rw [List.mem_singleton.1 hs]
    exact .goto
  · exact nofun

theorem Operand.emits (h : Operand F s v r j) (hV : Admits V F r.scratch j) :
    Emits F V v.requests r.code := by
  induction h with
  | slot | param | receiver | caught | staticField => exact .nil
  | literal => exact Emits.nil.weaken (List.nil_sublist _)
  | string ht =>
    have hx := hV.pool _ (Scratch.next_mem _ .ref)
    exact (Emits.object hx ht).trail (.assign hV.stringSize)
  | instanceField _ _ _ ih => exact (ih hV.left).trail emits_nullGuard
  | element _ _ hi _ iha ihi =>
    have ha := iha (hV.left.earlier fun x => hi.pool (LocalPool.stable_mem x))
    exact ((ha.trail emits_nullGuard).append (ihi hV.right)).trail (.oblige _ _)
  | length _ ih => exact (ih hV).trail emits_nullGuard
  | binary _ hr _ ihl ihr =>
    have hl := ihl (hV.left.earlier fun x => hr.pool (LocalPool.stable_mem x))
    exact hl.append (ihr hV.right)
  | neg _ ih => exact ih hV
  | convert _ _ _ _ ih => exact ih hV
  | cast _ _ _ ih => exact (ih hV.left).trail (.oblige _ _)
  | instanceOf _ _ ih => exact ih hV.left

/-- Storing into a field writes the heap at that field or assigns the static variable. -/
theorem emits_fieldStore (hi : fieldOf? target = some i)
    (hl : Operand F s target ⟨location, s', code⟩ j) (hV : Admits V F s' j)
    (hs : storeInto location e = .ok st) : Emits F V [] [.plain st] := by
  cases hl with
  | instanceField _ hx ht =>
    cases hs
    exact .fieldStore hx ht
  | staticField hx ht =>
    cases hs
    exact .assign (hV.static _ _ hx ht)
  | _ => cases hi

theorem Stored.emits (h : Stored F s target e r j) (hV : Admits V F r.scratch j) :
    Emits F V target.requests r.code := by
  cases h with
  | slot hx hc => exact .assign (hV.pool _ (LocalPool.slot_mem hx))
  | field hi hl _ _ _ hs =>
    exact ((hl.emits hV).trail emits_storeGuard).trail (emits_fieldStore hi hl hV hs)
  | element hl _ _ hs =>
    have hcode := hl.emits hV
    cases hl with
    | element hh =>
      obtain ⟨_, _, -, -, hheap⟩ := hh
      cases hs
      exact hcode.trail (.assign (hV.arrays hheap))

theorem Assumed.emits (h : Assumed F callee result captured code j) : Emits F V [] code := by
  cases h with
  | annotated =>
    apply Emits.trail
    · exact (Emits.passive .assume).cons (.passive .assume)
    · split
      · exact .passive .assume
      · exact .nil
  | plain => exact .nil

theorem DirectCall.emits (h : DirectCall F m callee actuals result captured code j)
    (he : V F.signature.exception) (hr : ∀ x, result = some x → V x) : Emits F V [] code := by
  obtain ⟨-, -, -, hassume⟩ := h
  refine Emits.trail (Emits.trail ?_ (.call ?_)) hassume.emits
  · apply Emits.of_forall
    intro o ho
    obtain ⟨e, -, rfl⟩ := List.mem_map.1 ho
    exact .oblige _ _
  · intro x hx
    obtain hx | hx := List.mem_append.1 hx
    · exact hr x (Option.mem_toList.1 hx)
    · exact List.mem_singleton.1 hx ▸ he

theorem GuardedCalls.emits
    (h : GuardedCalls F receiver actuals result captured ts thrown code j)
    (he : V F.signature.exception) (hr : ∀ x, result = some x → V x) : Emits F V [] code := by
  induction h with
  | nil => exact .nil
  | cons _ hd _ _ ih => exact (Emits.when rfl (hd.emits he hr)).cons ih

theorem Performed.emits
    (h : Performed F n call callee actuals result captured receiver thrown code j)
    (he : V F.signature.exception) (hr : ∀ x, result = some x → V x) : Emits F V [] code := by
  cases h with
  | direct _ hd | fallback _ _ _ _ hd => exact hd.emits he hr
  | devirtualized _ _ _ _ _ hg => exact hg.emits he hr

theorem TrapJumps.emits (h : TrapJumps F ts code j) : Emits F V [] code := by
  induction h with
  | nil => exact .nil
  | cons _ _ ih => exact emits_jumpWhen.cons ih

theorem EscapeExits.emits (h : EscapeExits F n fuel types code j) : Emits F V [] code := by
  induction h with
  | spent | done => exact .nil
  | step _ _ _ _ ih => exact (Emits.when rfl emits_exitCode).cons ih

theorem Continued.emits (h : Continued F n thrown code j) : Emits F V [] code := by
  obtain ⟨hj, -, he⟩ := h
  exact hj.emits.append he.emits

theorem Arguments.emits (h : Arguments F s args r j) (hV : Admits V F r.scratch j) :
    Emits F V (Value.requestsAll (args.map Prod.fst)) r.code := by
  induction h with
  | nil => exact .nil
  | cons ha _ _ hrest ih =>
    have harg := ha.emits (hV.left.earlier fun x => hrest.pool (LocalPool.stable_mem x))
    exact harg.append (ih hV.right)

theorem ReceiverOf.emits (h : ReceiverOf F s call r j) (hV : Admits V F r.scratch j) :
    Emits F V (Value.requestsAll call.base.toList) r.code := by
  cases h with
  | none => exact Emits.nil.weaken (List.nil_sublist _)
  | dynamic hb _ ho =>
    rw [hb]
    exact ((ho.emits hV).trail emits_nullGuard).weaken (List.sublist_append_left _ _)
  | direct hb _ ho =>
    rw [hb]
    exact (ho.emits hV).weaken (List.sublist_append_left _ _)

theorem Destined.result_mem (h : Destined F s callee target d s') (hx : d.result = some x) :
    x ∈ s'.pool.vars := by
  cases h with
  | void => cases hx
  | dropped | other =>
    cases hx
    exact Scratch.next_mem s _
  | «local» _ _ hslot =>
    cases hx
    exact LocalPool.slot_mem hslot

theorem WrittenBack.emits (h : WrittenBack F s w r j) (hV : Admits V F r.scratch j)
    (hT : ∀ v x, w = Option.some (v, x) → target = Option.some v) :
    Emits F V (Value.requestsAll target.toList) r.code := by
  cases h with
  | none => exact Emits.nil.weaken (List.nil_sublist _)
  | some hst =>
    rw [hT _ _ rfl]
    exact (hst.emits hV).weaken (List.sublist_append_left _ _)

theorem Destined.writeBack_eq (h : Destined F s callee target d s')
    (hw : d.writeBack = some (v, x)) : target = some v := by
  cases h <;> cases hw
  rfl

theorem Invoked.emits {call : Call} (h : Invoked F n call target s r j)
    (hV : Admits V F r.scratch j) :
    Emits F V (call.requests ++ Value.requestsAll target.toList) r.code := by
  have hrequests : call.requests =
      Value.requestsAll call.base.toList ++ Value.requestsAll call.args :=
    Value.requestsAll_append
  have hbase : ∀ base, call.base = some base → base.requests.Sublist call.requests := by
    intro base hb
    rw [hrequests, hb]
    exact (List.sublist_append_left _ _).trans (List.sublist_append_left _ _)
  cases h with
  | exit => exact emits_exitCode.weaken (List.nil_sublist _)
  | stringLengthDropped _ _ hb ho =>
    exact ((ho.emits hV).trail emits_nullGuard).weaken
      ((hbase _ hb).trans (List.sublist_append_left _ _))
  | stringLength _ _ hb ho ht hst =>
    have hcode := ho.emits (hV.left.earlier fun x => hst.pool (LocalPool.stable_mem x))
    rw [ht]
    exact ((hcode.trail emits_nullGuard).append (hst.emits hV.right)).weaken
      ((hbase _ hb).append (List.sublist_append_left _ _))
  | call _ _ _ hargs hr ha hd hp hx hw =>
    have h₃ := fun x => hw.pool (LocalPool.stable_mem x)
    have h₂ := fun x hx => h₃ x (hd.pool (LocalPool.stable_mem x) hx)
    have h₁ := fun x hx => h₂ x (ha.pool (LocalPool.stable_mem x) hx)
    have hc₁ := hr.emits (hV.left.left.left.left.earlier h₁)
    have hc₂ := ha.emits (hV.left.left.left.right.earlier h₂)
    have hc₃ := hp.emits hV.exception fun x hx => hV.pool x (h₃ x (hd.result_mem hx))
    have hc₅ := hw.emits hV.right fun v x hvx => hd.writeBack_eq hvx
    rw [List.map_fst_zip (Nat.le_of_eq hargs)] at hc₂
    rw [hrequests]
    exact (((hc₁.append hc₂).trail hc₃).trail hx.emits).append hc₅

theorem passive_cascaded {inner : Stmt} (hi : inner.Passive) :
    (cascaded F key cases inner).Passive := by
  induction cases generalizing inner with
  | nil => exact hi
  | cons c cases ih =>
    apply ih
    apply Stmt.Passive.ite
    · intro s hs
      rw [List.mem_singleton.1 hs]
      exact .goto
    · intro s hs
      rw [List.mem_singleton.1 hs]
      exact hi

theorem Switched.emits (h : Switched F n key cases other s r j) (hV : Admits V F r.scratch j) :
    Emits F V key.requests r.code := by
  cases h with
  | empty => exact (Emits.passive .goto).weaken (List.nil_sublist _)
  | cascade _ ho => exact (ho.emits hV.left.right).trail (.passive (passive_cascaded .goto))

theorem CatchJumps.emits (h : CatchJumps F handler ids code j) : Emits F V [] code := by
  induction h with
  | nil => exact .nil
  | cons _ _ ih => exact emits_jumpWhen.cons ih

theorem HandlerJumps.emits (h : HandlerJumps F traps handlers code j) : Emits F V [] code := by
  induction h with
  | nil => exact .nil
  | cons hc _ ih => exact hc.emits.append ih

theorem Handed.emits (h : Handed F n code j) : Emits F V [] code := by
  cases h with
  | leave => exact emits_exitCode
  | single => exact .passive .goto
  | many _ hj => exact hj.emits.append (.passive .ret)

theorem Dropped.emits (h : Dropped F s vs r j) (hV : Admits V F r.scratch j) :
    Emits F V (Value.requestsAll vs) r.code := by
  induction h with
  | nil => exact .nil
  | cons ho hrest ih =>
    have hcode := ho.emits (hV.left.left.earlier fun x => hrest.pool (LocalPool.stable_mem x))
    exact hcode.append (ih hV.right)

theorem Assigned.emits (h : Assigned F n target s v r j) (hV : Admits V F r.scratch j) :
    Emits F V (v.requests ++ target.requests) r.code := by
  cases h with
  | invoke h =>
    rw [Value.requests_invoke]
    simpa [Value.requestsAll] using h.emits hV
  | new ht hst =>
    have hx := hV.pool _ (hst.pool (LocalPool.stable_mem _) (Scratch.next_mem s .ref))
    exact (Emits.object hx ht).append (hst.emits hV.right)
  | @newArray _ _ _ s₁ _ _ _ _ _ _ _ _ ho hc ht hst =>
    have hgrow := fun x => hst.pool (LocalPool.stable_mem x)
    have hcode := ho.emits (hV.left.left.earlier fun x hx =>
      hgrow x (LocalPool.stable_mem x _ _ hx))
    have hobject := Emits.object (hV.pool _ (hgrow _ (Scratch.next_mem s₁ .ref))) ht
    exact ((hcode.append hobject).trail (.assign hV.arraySize)).append (hst.emits hV.right)
  | newMultiArray hd ht hst =>
    have hcode := hd.emits (hV.left.left.earlier fun x => hst.pool (LocalPool.stable_mem x))
    have hobject := Emits.object (hV.left.right.global _ List.mem_cons_self) ht
    exact (hcode.append hobject).append (hst.emits hV.right)
  | value ho hst =>
    have hcode := ho.emits (hV.left.earlier fun x => hst.pool (LocalPool.stable_mem x))
    exact hcode.append (hst.emits hV.right)

theorem Bound.emits (h : Bound F s index v r) (hV : Admits V F r.scratch j) :
    Emits F V [] r.code := by
  cases h with
  | receiver hx | param hx => exact .assign (hV.pool _ (LocalPool.slot_mem hx))
  | caught hx =>
    exact (Emits.assign (hV.pool _ (LocalPool.slot_mem hx))).cons (.assign hV.exception)

theorem Executed.emits (h : Executed F n s i r j) (hV : Admits V F r.scratch j) :
    Emits F V i.requests r.code := by
  cases h with
  | assign h => exact h.emits hV
  | identity h => exact h.emits hV
  | invoke h => simpa [Instr.requests, Value.requestsAll] using h.emits hV
  | goto => exact .passive .goto
  | branch ho => exact (ho.emits hV.left).trail emits_jumpWhen
  | lookupSwitch h | tableSwitch _ h => exact h.emits hV
  | ret hx ho => exact ((ho.emits hV).trail (.assign (hV.result _ hx))).trail emits_exitCode
  | retVoid => exact emits_exitCode
  | raise ho _ _ hh => exact ((ho.emits hV.left).trail (.assign hV.exception)).trail hh.emits
  | nop | breakpoint => exact .nil
  | enterMonitor ho | exitMonitor ho => exact (ho.emits hV).trail emits_nullGuard
  | retSubroutine => exact .unexpected

/-- Every segment is made of blocks, and it allocates objects of the types that its instruction asks
for, in the same order. -/
theorem Segments.emits (h : Segments F s nodes s' segs j) (hV : Admits V F s' j) :
    List.Forall₂ (fun nd seg => Emits F V nd.1.instr.requests seg) nodes segs := by
  induction h with
  | nil => exact .nil
  | cons hn hrest ih =>
    have hcode := hn.emits (hV.left.right.earlier fun x => hrest.pool (LocalPool.stable_mem x))
    have hentry : ∀ {n : Nat}, Emits F V [] (entryCode F n) := by
      intro n
      unfold entryCode
      split
      · exact .passive .label
      · exact .nil
    exact .cons (hentry.append hcode) (ih hV.right)

theorem Segments.emits_mem (h : Segments F s nodes s' segs j) (hV : Admits V F s' j)
    (hseg : seg ∈ segs) : ∃ ts, Emits F V ts seg := by
  have hall := h.emits hV
  clear h
  induction hall with
  | nil => cases hseg
  | cons hcode _ ih =>
    rcases List.mem_cons.1 hseg with rfl | hseg
    · exact ⟨_, hcode⟩
    · exact ih hseg

end Lower

end Verilower
