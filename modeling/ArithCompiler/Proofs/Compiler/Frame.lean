import Mathlib.Data.List.Basic
import ArithCompiler.Proofs.Backend.Faults
import ArithCompiler.Proofs.Compiler.Refusal

set_option autoImplicit false

/-!
# The stack below

The code for a tree takes values from the top of the operand stack and leaves values there, in numbers
that are known beforehand, and never looks further down. So whatever stands below stays where it is and
changes nothing, the checks of the stack are always passed, and every fault is one of the resolver or
of the backend.
-/

namespace ArithCompiler

variable {σ ν υ α β : Type}

/-! ## Effects on the stack -/

def Leaves (n : Nat) (P : Fault → Prop) (left : List ν) : Except Fault α → Prop
  | .ok _ => left.length = n
  | .error f => P f

/-- The code takes `m` values from the stack and leaves `n`, or stops with a fault of which `P` holds.
    The run is the same over every stack `below`, which stays as it is. -/
def Effect (m n : Nat) (P : Fault → Prop) (code : Emit σ ν α) : Prop :=
  ∀ b taken log, taken.length = m → ∃ outcome b' left log', Leaves n P left outcome ∧
    ∀ below, code.runOn ⟨b, taken ++ below, log⟩ = (outcome, ⟨b', left ++ below, log'⟩)

namespace Effect

variable {m n k : Nat} {P Q : Fault → Prop} {code : Emit σ ν α}

theorem pure (a : α) : Effect n n P (Pure.pure a : Emit σ ν α) :=
  fun b taken log h => ⟨.ok a, b, taken, log, h, fun _ => rfl⟩

theorem throw {f : Fault} (hf : P f) : Effect m n P (MonadExcept.throw f : Emit σ ν α) :=
  fun b taken log _ => ⟨.error f, b, taken, log, hf, fun _ => rfl⟩

/-- What the first part leaves, the second one takes. -/
theorem bind {next : α → Emit σ ν β} (h : Effect m n P code) (hnext : ∀ a, Effect n k P (next a)) :
    Effect m k P (code >>= next) := by
  intro b taken log htaken
  obtain ⟨outcome, b₁, left, log₁, hleft, hrun⟩ := h b taken log htaken
  cases outcome with
  | error f =>
    exact ⟨.error f, b₁, left, log₁, hleft, fun below => Step.runOn_bind_error (hrun below)⟩
  | ok a =>
    obtain ⟨outcome', b₂, left', log₂, hleft', hrun'⟩ := hnext a b₁ left log₁ hleft
    refine ⟨outcome', b₂, left', log₂, hleft', fun below => ?_⟩
    rw [Step.runOn_bind_ok (hrun below), hrun' below]

/-- More values on the stack belong to what stands below. -/
theorem widen (h : Effect m n P code) (k : Nat) : Effect (m + k) (n + k) P code := by
  intro b taken log htaken
  have hsplit : (taken.take m).length = m := by
    rw [List.length_take]
    omega
  have hrest : (taken.drop m).length = k := by
    rw [List.length_drop]
    omega
  obtain ⟨outcome, b', left, log', hleft, hrun⟩ := h b (taken.take m) log hsplit
  refine ⟨outcome, b', left ++ taken.drop m, log', ?_, fun below => ?_⟩
  · cases outcome with
    | error f => exact hleft
    | ok a => exact (List.length_append ..).trans (congrArg₂ (· + ·) hleft hrest)
  · have hbelow := hrun (taken.drop m ++ below)
    rwa [← List.append_assoc, List.take_append_drop, ← List.append_assoc] at hbelow

theorem imp (h : Effect m n P code) (hPQ : ∀ f, P f → Q f) : Effect m n Q code := by
  intro b taken log htaken
  obtain ⟨outcome, b', left, log', hleft, hrun⟩ := h b taken log htaken
  refine ⟨outcome, b', left, log', ?_, hrun⟩
  cases outcome with
  | error f => exact hPQ f hleft
  | ok a => exact hleft

theorem eq_of_ok (h : Effect 0 n P code) {w w' : Work σ ν} {a : α}
    (hrun : code.runOn w = (.ok a, w')) : ∃ left, left.length = n ∧ w'.stack = left ++ w.stack := by
  obtain ⟨outcome, b', left, log', hleft, hall⟩ := h w.backend [] w.log rfl
  have hsame := hrun.symm.trans (hall w.stack)
  obtain ⟨rfl, rfl⟩ := Prod.mk.inj hsame
  exact ⟨left, hleft, rfl⟩

/-! ## Steps on the stack -/

theorem note (message : String) : Effect n n P (Emit.note message : Emit σ ν Unit) :=
  fun b taken log h => ⟨.ok (), b, taken, log ++ [.compiler .debug message], h, fun _ => rfl⟩

theorem pop : Effect (n + 1) n P (Emit.pop : Emit σ ν ν) := by
  intro b taken log htaken
  obtain ⟨v, rest, rfl⟩ := List.exists_cons_of_length_eq_add_one htaken
  exact ⟨.ok v, b, rest, log, Nat.succ.inj htaken, fun _ => rfl⟩

/-- What follows may rely on the number of values that were taken. -/
theorem popMany_bind {next : List ν → Emit σ ν β}
    (h : ∀ vs, vs.length = n → Effect 0 k P (next vs)) : Effect n k P (Emit.popMany n >>= next) := by
  intro b taken log htaken
  have hpop : ∀ below, (Emit.popMany n : Emit σ ν (List ν)).runOn ⟨b, taken ++ below, log⟩ =
      (.ok taken.reverse, ⟨b, below, log⟩) := by
    intro below
    have henough : ¬ (taken ++ below).length < n := by
      rw [List.length_append]
      omega
    simp only [Emit.popMany, Step.runOn_bind, Step.runOn_get, Step.runOn_set, Step.runOn_pure,
      if_neg henough]
    rw [← htaken, List.take_left, List.drop_left]
  have hlength : taken.reverse.length = n := by rw [List.length_reverse, htaken]
  obtain ⟨outcome, b', left, log', hleft, hrun⟩ := h taken.reverse hlength b [] log rfl
  refine ⟨outcome, b', left, log', hleft, fun below => ?_⟩
  rw [Step.runOn_bind_ok (hpop below)]
  exact hrun below

theorem push {operation : Step (Backend σ) ν}
    (h : ∀ b f, (operation.runOn b).1 = .error f → P f) : Effect n (n + 1) P (Emit.push operation) := by
  intro b taken log htaken
  cases hrun : operation.runOn b with
  | mk outcome b' =>
    cases outcome with
    | ok v =>
      refine ⟨.ok (), b', v :: taken, log, congrArg Nat.succ htaken, fun below => ?_⟩
      simp [Emit.push, Emit.perform, Step.runOn_bind, hrun]
    | error f =>
      refine ⟨.error f, b', taken, log, h b f (congrArg Prod.fst hrun), fun below => ?_⟩
      simp [Emit.push, Emit.perform, Step.runOn_bind, hrun]

end Effect

/-! ## Faults from outside -/

namespace Resolver

variable {r : Resolver} {t : Target σ ν υ} {b : Backend σ} {f : Fault}

theorem ident_fails {x : String} (h : ((r.ident t x).runOn b).1 = .error f) :
    r.refusal (.name x) = some f ∨ Backend.Fails t f := by
  cases r with
  | missing | refusing =>
    cases h
    exact .inl rfl
  | scope s =>
    cases hx : s.constants.get? x with
    | none =>
      simp only [ident, hx] at h
      cases h
      exact .inl (by simp only [refusal, hx])
    | some v =>
      simp only [ident, hx] at h
      exact .inr (Backend.fails_of_error (.const v) rfl h)

theorem call_fails {g : String} {args : List ν} (h : ((r.call t g args).runOn b).1 = .error f) :
    r.refusal (.enter g) = some f ∨ r.refusal (.call g args.length) = some f ∨
      Backend.Fails t f := by
  cases r with
  | missing =>
    cases h
    exact .inl rfl
  | refusing =>
    cases h
    exact .inr (.inl rfl)
  | scope s =>
    rcases Step.runOn_bind_eq_error h with hrefused | ⟨_, b', -, hcall⟩
    · have hallow := allow_eq (r := .scope s) (f := g) rfl args.length
      rw [Step.runOn_lift] at hrefused
      change s.admit? g args.length = _ at hallow hrefused
      rw [hrefused] at hallow
      cases hcall : (scope s).refusal (.call g args.length) with
      | none =>
        rw [hcall] at hallow
        cases hallow
      | some fault =>
        rw [hcall] at hallow
        cases hallow
        exact .inr (.inl rfl)
    · exact .inr (.inr (Backend.fails_of_error (.call g args) rfl hcall))

theorem refusal_ne_residual (r : Resolver) (v : Visit) (n : Nat) :
    r.refusal v ≠ some (.residual n) := by
  intro h
  cases r with
  | missing | refusing => cases v <;> cases h
  | scope s =>
    cases v with
    | number | binary | enter => cases h
    | name x =>
      simp only [refusal] at h
      split at h <;> cases h
    | call f count =>
      simp only [refusal] at h
      split at h
      · cases h
      · split at h <;> cases h

end Resolver

namespace Compiler

variable {c : Compiler σ ν υ}

def Faults (c : Compiler σ ν υ) (vs : List Visit) (f : Fault) : Prop :=
  (∃ v ∈ vs, c.resolver.refusal v = some f) ∨ Backend.Fails c.target f

theorem Faults.mono {vs ws : List Visit} (h : vs ⊆ ws) (f : Fault) (hf : c.Faults vs f) :
    c.Faults ws f :=
  hf.imp_left fun ⟨v, hv, hrefused⟩ => ⟨v, h hv, hrefused⟩

/-! ## The code for a tree -/

theorem number_effect (hc : c.imbalance = .balanced) (value : Float) :
    Effect 0 1 (c.Faults [.number value]) (c.number value) := by
  rw [number, leaf_balanced hc]
  refine (Effect.note _).bind fun _ => .push fun b f hf => ?_
  exact .inr (Backend.fails_of_error (.const value) rfl hf)

theorem name_effect (hc : c.imbalance = .balanced) (x : String) :
    Effect 0 1 (c.Faults [.name x]) (c.name x) := by
  rw [name, leaf_balanced hc]
  by_cases hr : c.resolver = .missing
  · rw [if_pos hr]
    refine .throw (.inl ⟨.name x, List.mem_singleton.2 rfl, ?_⟩)
    rw [hr]
    rfl
  · rw [if_neg hr]
    refine (Effect.note _).bind fun _ => .push fun b f hf => ?_
    exact (Resolver.ident_fails hf).imp_left fun hx => ⟨_, List.mem_singleton.2 rfl, hx⟩

theorem operator_effect (hc : c.imbalance = .balanced) (op : Operator) :
    Effect 2 1 (c.Faults [.binary op]) (c.operator op) := by
  simp only [operator, hc, reduceCtorEq, if_false]
  refine Effect.pop.bind fun right => Effect.pop.bind fun left => (Effect.note _).bind fun _ => ?_
  refine (Effect.push fun b f hf => ?_).bind fun _ => .pure _
  exact .inr (Backend.fails_of_error (.binary op left right) rfl hf)

theorem requireResolver_effect (f : String) :
    Effect 0 0 (c.Faults [.enter f]) (c.requireResolver f) := by
  unfold requireResolver
  split
  · rename_i hr
    refine .throw (.inl ⟨.enter f, List.mem_singleton.2 rfl, ?_⟩)
    rw [hr]
    rfl
  · exact .pure _

theorem invocation_effect (f : String) (count : Nat) :
    Effect count 1 (c.Faults [.enter f, .call f count]) (c.invocation f count) := by
  refine Effect.popMany_bind fun vs hvs => (Effect.note _).bind fun _ => .push fun b fault hf => ?_
  rcases Resolver.call_fails hf with henter | hcall | hfails
  · exact .inl ⟨_, by simp, henter⟩
  · exact .inl ⟨.call f count, by simp, by rw [← hvs]; exact hcall⟩
  · exact .inr hfails

theorem emitAll_effect {P : Fault → Prop} {args : List Expr}
    (h : ∀ a ∈ args, Effect 0 1 P (c.emit a)) : Effect 0 args.length P (c.emitAll args) := by
  induction args with
  | nil => exact .pure ()
  | cons a args ih =>
    have hrest := ih fun b hb => h b (List.mem_cons_of_mem a hb)
    exact (h a List.mem_cons_self).bind fun _ => hrest.widen 1

/-- The code for a tree takes nothing from the stack and leaves one value. -/
theorem emit_effect (hc : c.imbalance = .balanced) (e : Expr) :
    Effect 0 1 (c.Faults e.visits) (c.emit e) := by
  induction e using Tree.exprInduction with
  | number v => exact number_effect hc v
  | name x => exact name_effect hc x
  | binary op l r ihl ihr =>
    have hl : Effect 0 1 (c.Faults (Tree.binary op l r : Expr).visits) (c.emit l) :=
      ihl.imp (Faults.mono (by simp [Tree.visits]))
    have hr : Effect 0 1 (c.Faults (Tree.binary op l r : Expr).visits) (c.emit r) :=
      ihr.imp (Faults.mono (by simp [Tree.visits]))
    refine hl.bind fun _ => (hr.widen 1).bind fun _ => (operator_effect hc op).imp ?_
    exact Faults.mono (by simp [Tree.visits])
  | call f args ih =>
    have hargs : ∀ a ∈ args, Effect 0 1 (c.Faults (Tree.call f args : Expr).visits) (c.emit a) := by
      intro a ha
      refine (ih a ha).imp (Faults.mono fun v hv => ?_)
      have hall : v ∈ Tree.visitsAll args := by
        rw [Tree.visitsAll_eq_flatMap]
        exact List.mem_flatMap.2 ⟨a, ha, hv⟩
      simp [Tree.visits, hall]
    refine ((requireResolver_effect f).imp (Faults.mono (by simp [Tree.visits]))).bind fun _ => ?_
    refine (emitAll_effect hargs).bind fun _ => (invocation_effect f args.length).imp ?_
    exact Faults.mono (by simp [Tree.visits])

/-! ## The whole compilation -/

theorem compile_faults (hc : c.imbalance = .balanced) {e : Expr} {w : Work σ ν} {f : Fault}
    (h : ((c.compile e).runOn w).1 = .error f) : c.Faults e.visits f := by
  obtain ⟨log, hopening⟩ := c.opening_runOn w
  rcases Step.runOn_bind_eq_error h with hfault | ⟨_, w₁, hopened, h⟩
  · rw [hopening] at hfault
    exact .inr (Backend.fails_of_opening hfault)
  · rw [hopening] at hopened
    obtain ⟨-, rfl⟩ := Prod.mk.inj hopened
    obtain ⟨outcome, b, left, log', hleft, hrun⟩ := emit_effect hc e _ [] log rfl
    have hemit := hrun []
    rcases Step.runOn_bind_eq_error h with herror | ⟨_, w₂, hemitted, h⟩
    · rw [List.append_nil] at hemit
      rw [hemit] at herror
      subst herror
      exact hleft
    · rw [List.append_nil] at hemit
      obtain ⟨rfl, rfl⟩ := Prod.mk.inj (hemit.symm.trans hemitted)
      obtain ⟨v, rfl⟩ := List.length_eq_one_iff.1 hleft
      obtain ⟨log'', hclosing⟩ := c.closing_runOn v b log'
      rw [List.append_nil, hclosing] at h
      exact .inr (Backend.fails_of_closing h)

/-- Where the backend never answers that operands are left over, no compilation ends so. -/
theorem compile_ne_residual (hc : c.imbalance = .balanced)
    (ht : ∀ n, ¬ Backend.Fails c.target (.residual n)) (e : Expr) (w : Work σ ν) (n : Nat) :
    ((c.compile e).runOn w).1 ≠ .error (.residual n) := by
  intro h
  rcases compile_faults hc h with ⟨v, -, hv⟩ | hfails
  · exact Resolver.refusal_ne_residual c.resolver v n hv
  · exact ht n hfails

/-! ## What the checks find -/

theorem operands_stack (hc : c.imbalance = .balanced) {l r : Expr} {w w' : Work σ ν}
    (h : (do c.emit l; c.emit r).runOn w = (.ok (), w')) :
    ∃ a b, w'.stack = b :: a :: w.stack := by
  have hl : Effect 0 1 (fun _ => True) (c.emit l) := (emit_effect hc l).imp fun _ _ => trivial
  have hr : Effect 0 1 (fun _ => True) (c.emit r) := (emit_effect hc r).imp fun _ _ => trivial
  obtain ⟨vs, hvs, hstack⟩ := (hl.bind fun _ => hr.widen 1).eq_of_ok h
  obtain ⟨b, a, rfl⟩ := List.length_eq_two.1 hvs
  exact ⟨a, b, hstack⟩

theorem arguments_stack (hc : c.imbalance = .balanced) {args : List Expr} {w w' : Work σ ν}
    (h : (c.emitAll args).runOn w = (.ok (), w')) :
    ∃ vs, vs.length = args.length ∧ w'.stack = vs ++ w.stack := by
  have hargs : Effect 0 args.length (fun _ => True) (c.emitAll args) :=
    emitAll_effect fun a _ => (emit_effect hc a).imp fun _ _ => trivial
  exact hargs.eq_of_ok h

theorem opened_stack (hc : c.imbalance = .balanced) {e : Expr} {w w' : Work σ ν}
    (h : (do c.opening; c.emit e).runOn w = (.ok (), w')) : ∃ v, w'.stack = [v] := by
  obtain ⟨_, w₁, hopened, hemit⟩ := Step.runOn_bind_eq_ok h
  obtain ⟨log, hopening⟩ := c.opening_runOn w
  obtain ⟨-, rfl⟩ := Prod.mk.inj (hopening.symm.trans hopened)
  obtain ⟨vs, hvs, hstack⟩ := (emit_effect hc e).eq_of_ok hemit
  obtain ⟨v, rfl⟩ := List.length_eq_one_iff.1 hvs
  exact ⟨v, hstack⟩

/-- The code for a tree runs over every stack as over the empty one. It ends with one more value, or
    with a fault of the resolver or of the backend, and what was on the stack is still there. The
    checks of the stack are passed wherever they are made: an operator finds its two operands, a call
    its arguments, and the return the only value that is left. No backend that there is answers that
    operands are left over. -/
theorem emit_frame (t : Target σ ν υ) (r : Resolver) (notices : υ → List LogEntry) :
    let c : Compiler σ ν υ := ⟨t, r, .balanced, notices⟩
    (∀ (e : Expr) b log, ∃ outcome b' left log',
        (∀ stack, (c.emit e).runOn ⟨b, stack, log⟩ = (outcome, ⟨b', left ++ stack, log'⟩)) ∧
        (outcome = .ok () → ∃ v, left = [v]) ∧ ∀ f, outcome = .error f → c.Faults e.visits f) ∧
      (∀ (e : Expr) w f, ((c.compile e).runOn w).1 = .error f → c.Faults e.visits f) ∧
      ((∀ n, ¬ Backend.Fails t (.residual n)) →
        ∀ (e : Expr) w n, ((c.compile e).runOn w).1 ≠ .error (.residual n)) ∧
      (∀ (left right : Expr) w w', (do c.emit left; c.emit right).runOn w = (.ok (), w') →
        ∃ a b, w'.stack = b :: a :: w.stack) ∧
      (∀ (args : List Expr) w w', (c.emitAll args).runOn w = (.ok (), w') →
        ∃ vs, vs.length = args.length ∧ w'.stack = vs ++ w.stack) ∧
      (∀ (e : Expr) w w', (do c.opening; c.emit e).runOn w = (.ok (), w') →
        ∃ v, w'.stack = [v]) ∧
      (∀ n, ¬ Backend.Fails Recording.target (.residual n)) ∧
      (∀ n, ¬ Backend.Fails Bytecode.target (.residual n)) ∧
      ∀ (m : Math.Elementary) level n,
        ¬ Backend.Fails (NativeModule.target m level) (.residual n) := by
  intro c
  have hc : c.imbalance = .balanced := rfl
  refine ⟨fun e b log => ?_, fun e w f h => compile_faults hc h, fun ht => ?_,
    fun l r w w' h => operands_stack hc h, fun args w w' h => arguments_stack hc h,
    fun e w w' h => opened_stack hc h, Backend.not_fails_residual Recording.serve_noResidual,
    Backend.not_fails_residual Bytecode.serve_noResidual,
    fun m level => Backend.not_fails_residual (NativeModule.serve_noResidual m level)⟩
  · obtain ⟨outcome, b', left, log', hleft, hrun⟩ := emit_effect hc e b [] log rfl
    refine ⟨outcome, b', left, log', hrun, ?_, ?_⟩
    · rintro rfl
      exact List.length_eq_one_iff.1 hleft
    · rintro f rfl
      exact hleft
  · exact fun e w n => compile_ne_residual hc ht e w n

/-- A call without arguments among those of another one, over a stack that is not empty. -/
theorem emit_frame_nested_call :
    let c : Compiler Recording Handle (List Event) :=
      ⟨Recording.target, .scope ⟨[], [("f", 2), ("g", 0)]⟩, .balanced, fun _ => []⟩
    let e : Expr := .call "f" [.call "g" [], .number 2.0]
    (∃ b v log, (c.emit e).runOn ⟨⟨.body, entryPoint, .empty⟩, [.nothing, .text "x"], []⟩
        = (.ok (), ⟨b, [v, .nothing, .text "x"], log⟩)) ∧
      ∀ w n, ((c.compile e).runOn w).1 ≠ .error (.residual n) := by
  intro c e
  obtain ⟨hframe, -, hresidual, -, -, -, hrecording, -⟩ :=
    emit_frame Recording.target c.resolver c.notices
  refine ⟨?_, hresidual hrecording e⟩
  obtain ⟨outcome, b, left, log, hrun, hleft, -⟩ := hframe e ⟨.body, entryPoint, .empty⟩ []
  have hemit := hrun [.nothing, .text "x"]
  have hok : ((c.emit e).runOn ⟨⟨.body, entryPoint, .empty⟩, [.nothing, .text "x"], []⟩).1
      = .ok () := rfl
  obtain rfl : outcome = .ok () := (congrArg Prod.fst hemit).symm.trans hok
  obtain ⟨v, rfl⟩ := hleft rfl
  exact ⟨b, v, log, hemit⟩

end Compiler

end ArithCompiler
