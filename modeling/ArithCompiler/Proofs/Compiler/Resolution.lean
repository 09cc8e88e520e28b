import ArithCompiler.Proofs.Compiler.Checks
import ArithCompiler.Proofs.Tree.Lines

set_option autoImplicit false

/-!
# Trees that can be resolved

When every name has a constant and every call is admitted, resolving does not show: the target is
asked for constants, operators and calls only. Otherwise the first refusal on the way through the
tree is the outcome, provided that the target refuses nothing before it.
-/

namespace ArithCompiler

variable {σ ν υ : Type}

namespace Resolver

def value (r : Resolver) (x : String) : Float := (r.constant? x).getD Number.notANumber

structure Resolves (r : Resolver) (e : Expr) : Prop where
  names : ∀ x ∈ e.names, (r.constant? x).isSome
  enter : ∀ c ∈ e.calls, r.enter c.1 = .ok ()
  calls : ∀ c ∈ e.calls, r.allow c.1 c.2 = .ok ()

/-- Goes through a tree as compiling does, and only looks at what is refused. -/
def checking (r : Resolver) : Operations (Except Fault) Unit where
  number _ := .ok ()
  name x := if (r.constant? x).isSome then .ok () else .error (.unbound x)
  binary _ _ _ := .ok ()
  enter f := r.enter f
  call f args := r.allow f args.length

def check (r : Resolver) (e : Expr) : Except Fault Unit := r.checking.tree e

namespace Resolves

variable {r : Resolver} {op : Operator} {left right : Expr} {f : String} {args : List Expr}

theorem subtree {t e : Expr} (h : Resolves r e) (ht : Tree.Subtree t e) : Resolves r t :=
  ⟨fun x hx => h.names x (Tree.mem_collect_subtree _ _ _ ht hx),
    fun c hc => h.enter c (Tree.mem_collect_subtree _ _ _ ht hc),
    fun c hc => h.calls c (Tree.mem_collect_subtree _ _ _ ht hc)⟩

theorem binary (hl : Resolves r left) (hr : Resolves r right) :
    Resolves r (.binary op left right) :=
  ⟨fun x hx => (List.mem_append.1 hx).elim (hl.names x) (hr.names x),
    fun c hc => (List.mem_append.1 hc).elim (hl.enter c) (hr.enter c),
    fun c hc => (List.mem_append.1 hc).elim (hl.calls c) (hr.calls c)⟩

theorem call (henter : r.enter f = .ok ()) (hargs : ∀ a ∈ args, Resolves r a)
    (hcall : r.allow f args.length = .ok ()) : Resolves r (.call f args) := by
  refine ⟨fun x hx => ?_, fun c hc => ?_, fun c hc => ?_⟩
  · rcases (Tree.mem_collect_call _ _ _).1 hx with ⟨a, ha, hx⟩ | hx
    · exact (hargs a ha).names x hx
    · cases hx
  · rcases (Tree.mem_collect_call _ _ _).1 hc with ⟨a, ha, hc⟩ | hc
    · exact (hargs a ha).enter c hc
    · obtain rfl := List.mem_singleton.1 hc
      exact henter
  · rcases (Tree.mem_collect_call _ _ _).1 hc with ⟨a, ha, hc⟩ | hc
    · exact (hargs a ha).calls c hc
    · obtain rfl := List.mem_singleton.1 hc
      exact hcall

end Resolves

end Resolver

open Resolver (Resolves)

namespace Target

variable (t : Target σ ν υ) (r : Resolver)

def plain (value : String → Float) : Operations (Step σ) ν where
  number := t.const
  name x := t.const (value x)
  binary := t.binary
  enter _ := pure ()
  call := t.call

theorem plain_plain (value : String → Float) : (t.plain value).Plain value :=
  ⟨fun _ => rfl, fun _ => rfl⟩

variable {r} {e : Expr}

theorem operations_tree (h : Resolves r e) :
    (t.operations r).tree e = (t.plain r.value).tree e := by
  apply Operations.tree_congr
  refine ⟨fun _ _ => rfl, fun x hx => ?_, rfl, fun c hc => ?_, fun c hc vs hvs => ?_⟩
  · obtain ⟨v, hv⟩ := Option.isSome_iff_exists.1 (h.names x hx)
    simp only [operations, plain, Resolver.value, hv, Option.getD_some]
  · simp only [operations, plain, h.enter c hc]
    rfl
  · simp only [operations, plain, hvs, h.calls c hc]
    exact pure_bind _ _

theorem trees_runOn_eq_ok {o : Operations (Step σ) ν} {es : List Expr} {s s' : σ} {vs : List ν}
    (h : (o.trees es).runOn s = (.ok vs, s')) :
    ∀ e ∈ es, ∃ v s₁ s₂, (o.tree e).runOn s₁ = (.ok v, s₂) := by
  induction es generalizing s s' vs with
  | nil => simp
  | cons e es ih =>
    obtain ⟨v, s₁, hv, h⟩ := Step.runOn_bind_eq_ok h
    obtain ⟨ws, s₂, hws, -⟩ := Step.runOn_bind_eq_ok h
    intro a ha
    rcases List.mem_cons.1 ha with rfl | ha
    · exact ⟨v, s, s₁, hv⟩
    · exact ih hws a ha

theorem resolves_of_runOn {s s' : σ} {v : ν}
    (h : ((t.operations r).tree e).runOn s = (.ok v, s')) : Resolves r e := by
  induction e using Tree.exprInduction generalizing s v s' with
  | number w => exact ⟨nofun, nofun, nofun⟩
  | name x =>
    refine ⟨fun y hy => ?_, nofun, nofun⟩
    obtain rfl := List.mem_singleton.1 hy
    rw [Operations.tree, operations] at h
    cases hx : r.constant? y with
    | none =>
      simp only [hx] at h
      cases h
    | some w => rfl
  | binary op l r' ihl ihr =>
    obtain ⟨a, s₁, hl, h⟩ := Step.runOn_bind_eq_ok h
    obtain ⟨b, s₂, hr, -⟩ := Step.runOn_bind_eq_ok h
    exact (ihl hl).binary (ihr hr)
  | call f args ih =>
    obtain ⟨_, s₁, henter, h⟩ := Step.runOn_bind_eq_ok h
    obtain ⟨vs, s₂, hargs, h⟩ := Step.runOn_bind_eq_ok h
    obtain ⟨_, s₃, hallow, -⟩ := Step.runOn_bind_eq_ok h
    have hlength := ((t.operations r).trees_length args).of_runOn hargs
    rw [hlength] at hallow
    refine .call (congrArg Prod.fst henter) (fun a ha => ?_) (congrArg Prod.fst hallow)
    obtain ⟨w, s₄, s₅, hw⟩ := trees_runOn_eq_ok hargs a ha
    exact ih a ha hw

variable (r)

def Carries (I : σ → Prop) : Prop :=
  ∀ e s, Resolves r e → I s → ∃ v s', ((t.operations r).tree e).runOn s = (.ok v, s') ∧ I s'

end Target

namespace Resolver

variable {r : Resolver}

theorem checking_lenient (r : Resolver) : Check.Lenient r.checking := ⟨fun _ => rfl, fun _ => rfl⟩

theorem constant?_isSome_of_check {x : String} (h : r.checking.name x = .ok ()) :
    (r.constant? x).isSome := by
  change (if (r.constant? x).isSome then _ else _) = _ at h
  split at h
  · assumption
  · cases h

theorem resolves_of_check {e : Expr} (h : r.check e = .ok ()) : Resolves r e := by
  obtain ⟨hnames, hcalls⟩ := Check.of_tree_eq_ok h
  refine ⟨fun x hx => constant?_isSome_of_check (hnames x hx), fun c hc => (hcalls c hc).1,
    fun c hc => ?_⟩
  obtain ⟨-, us, hlength, hcall⟩ := hcalls c hc
  rw [← hlength]
  exact hcall

theorem check_of_resolves {e : Expr} (h : Resolves r e) : r.check e = .ok () := by
  let pass : Check := ⟨fun _ => .ok (), fun _ => .ok (), fun _ _ _ => .ok (), fun _ => .ok (),
    fun _ _ => .ok ()⟩
  have htotal : pass.Total :=
    ⟨fun _ => ⟨_, rfl⟩, fun _ => ⟨_, rfl⟩, fun _ _ _ => ⟨_, rfl⟩, fun _ => rfl, fun _ _ => ⟨_, rfl⟩⟩
  have hsame : r.check e = pass.tree e := by
    apply Operations.tree_congr
    refine ⟨fun _ _ => rfl, fun x hx => if_pos (h.names x hx), rfl, h.enter, fun c hc us hus => ?_⟩
    change r.allow c.1 us.length = .ok ()
    rw [hus]
    exact h.calls c hc
  obtain ⟨_, hpass⟩ := htotal.tree e
  exact hsame.trans hpass

end Resolver

/-! ## Scopes -/

theorem Scope.admit?_eq_ok_iff {s : Scope} {f : String} {count : Nat} :
    s.admit? f count = .ok () ↔ s.functions.get? f = some (count : Int) := by
  unfold Scope.admit?
  cases s.functions.get? f with
  | none => simp
  | some arity =>
    by_cases h : (count : Int) = arity
    · simp [h]
    · simp [h, Ne.symm h]

theorem Resolver.resolves_scope_iff {s : Scope} {e : Expr} :
    Resolves (.scope s) e ↔ (∀ x ∈ e.names, (s.constants.get? x).isSome) ∧
      ∀ call ∈ e.calls, s.functions.get? call.1 = some (call.2 : Int) := by
  constructor
  · intro h
    exact ⟨h.names, fun c hc => Scope.admit?_eq_ok_iff.1 (h.calls c hc)⟩
  · rintro ⟨hnames, hcalls⟩
    exact ⟨hnames, fun _ _ => rfl, fun c hc => Scope.admit?_eq_ok_iff.2 (hcalls c hc)⟩

theorem Scope.library_calls {s : Scope} (hs : ∀ q ∈ s.functions, q ∈ Math.arities) {e : Expr}
    (h : Resolves (.scope s) e) : ∀ q ∈ e.calls, (q.1, (q.2 : Int)) ∈ Math.arities :=
  fun q hq => hs _ (Bindings.mem_of_get? ((Resolver.resolves_scope_iff.1 h).2 q hq))

/-! ## Refusals -/

namespace Target

variable {t : Target σ ν υ} {r : Resolver} {I : σ → Prop}

theorem name_refused {x : String} {f : Fault} (hx : r.checking.name x = .error f) (s : σ) :
    ((t.operations r).name x).runOn s = (.error f, s) := by
  change (if (r.constant? x).isSome then _ else _) = _ at hx
  cases hconstant : r.constant? x with
  | some v =>
    rw [hconstant] at hx
    cases hx
  | none =>
    rw [hconstant] at hx
    cases hx
    simp only [operations, hconstant]
    rfl

theorem enter_runOn (t : Target σ ν υ) (r : Resolver) (g : String) (s : σ) :
    ((t.operations r).enter g).runOn s = (r.enter g, s) :=
  Step.runOn_lift _ s

theorem Carries.foretells (h : t.Carries r I) :
    Check.Foretells r.checking (t.operations r) I where
  lenient := Resolver.checking_lenient r
  carries e s he hs := h e s (Resolver.resolves_of_check he) hs
  name _ _ s hx _ := ⟨s, name_refused hx s⟩
  enter := enter_runOn t r
  call g us vs f s hcall hlength _ := by
    have hlift : (liftM (r.allow g vs.length) : Step σ Unit).runOn s = (.error f, s) := by
      rw [Step.runOn_lift, ← hlength]
      exact congrArg (·, s) hcall
    exact ⟨s, Step.runOn_bind_error hlift⟩

end Target

end ArithCompiler
