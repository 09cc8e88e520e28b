import ArithCompiler.Proofs.Bytecode.Requests

set_option autoImplicit false

/-!
# The life of a unit

A driver may ask a backend for anything at any time, and go on after a refusal. What it is granted
is always the beginning of the life of one unit, and what it is refused changes neither the phase
nor the name; in the making of bytecode it changes nothing at all.
-/

namespace ArithCompiler

namespace Backend

variable {σ ν υ : Type}

structure Exchange (σ ν υ : Type) where
  request : Request ν
  before : Backend σ
  outcome : Except Fault (Reply ν υ)
  after : Backend σ

/-- The requests one after another, whatever comes of each. -/
def exchanges (t : Target σ ν υ) : Backend σ → List (Request ν) → List (Exchange σ ν υ)
  | _, [] => []
  | b, r :: rs =>
    let (outcome, b') := (answer t r).runOn b
    ⟨r, b, outcome, b'⟩ :: exchanges t b' rs

def granted (xs : List (Exchange σ ν υ)) : List (Request ν) :=
  (xs.filter (·.outcome.isOk)).map (·.request)

def Lifecycle (rs : List (Request ν)) : Prop :=
  ∃ name ops v, (∀ r ∈ ops, r.IsOperation) ∧
    rs <+: [.create name .entry, .position] ++ ops ++ [.ret v, .finalize]

inductive Path : Phase → List (Request ν) → Prop
  | nil (p : Phase) : Path p []
  | cons {p q : Phase} {r : Request ν} {rs : List (Request ν)} :
      Advances p r q → Path q rs → Path p (r :: rs)

theorem mem_exchanges {t : Target σ ν υ} {b : Backend σ} {rs : List (Request ν)}
    {x : Exchange σ ν υ} (h : x ∈ exchanges t b rs) :
    (answer t x.request).runOn x.before = (x.outcome, x.after) := by
  induction rs generalizing b with
  | nil => simp [exchanges] at h
  | cons r rs ih =>
    rw [exchanges] at h
    rcases List.mem_cons.1 h with rfl | h
    · rfl
    · exact ih h

section Exchanges

variable (t : Target σ ν υ) {b b' : Backend σ}

theorem exchanges_cons {r : Request ν} {outcome : Except Fault (Reply ν υ)}
    (h : (answer t r).runOn b = (outcome, b')) (rs : List (Request ν)) :
    exchanges t b (r :: rs) = ⟨r, b, outcome, b'⟩ :: exchanges t b' rs := by
  rw [exchanges, h]

/-- After the unit is finished nothing changes any more. -/
theorem mem_exchanges_finalized (hb : b.phase = .finalized) {rs : List (Request ν)}
    {x : Exchange σ ν υ} (hx : x ∈ exchanges t b rs) : x.after = b := by
  induction rs with
  | nil => simp [exchanges] at hx
  | cons r rs ih =>
    obtain ⟨e, he⟩ := answer_finalized t hb r
    rw [exchanges_cons t he] at hx
    rcases List.mem_cons.1 hx with rfl | hx
    · rfl
    · exact ih hx

/-- What comes after an exchange starts from where the exchange led. -/
theorem exchanges_eq_append {rs : List (Request ν)} {before later : List (Exchange σ ν υ)}
    {x : Exchange σ ν υ} (h : exchanges t b rs = before ++ x :: later) :
    ∃ rs', later = exchanges t x.after rs' := by
  induction rs generalizing b before with
  | nil => simp [exchanges] at h
  | cons r rs ih =>
    rw [exchanges_cons t rfl] at h
    cases before with
    | nil =>
      obtain ⟨rfl, rfl⟩ := List.cons.inj h
      exact ⟨rs, rfl⟩
    | cons y before => exact ih (List.cons.inj h).2

end Exchanges

theorem path_granted (t : Target σ ν υ) (b : Backend σ) (rs : List (Request ν)) :
    Path b.phase (granted (exchanges t b rs)) := by
  induction rs generalizing b with
  | nil => exact .nil _
  | cons r rs ih =>
    rw [exchanges]
    cases h : (answer t r).runOn b with
    | mk outcome b' =>
      cases outcome with
      | ok reply => exact .cons (answer_eq_ok t h) (ih b')
      | error f =>
        rw [← (answer_eq_error t h).1]
        exact ih b'

theorem path_finalized {rs : List (Request ν)} (h : Path .finalized rs) : rs = [] := by
  cases h with
  | nil => rfl
  | cons h => cases h

theorem path_returned {rs : List (Request ν)} (h : Path .returned rs) : rs <+: [.finalize] := by
  cases h with
  | nil => exact List.nil_prefix
  | cons h hrest =>
    cases h
    obtain rfl := path_finalized hrest
    exact List.prefix_rfl

theorem path_body [Nonempty ν] {rs : List (Request ν)} (h : Path .body rs) :
    ∃ ops v, (∀ r ∈ ops, r.IsOperation) ∧ rs <+: ops ++ [.ret v, .finalize] := by
  generalize hp : Phase.body = p at h
  induction h with
  | nil p =>
    obtain ⟨v⟩ := ‹Nonempty ν›
    exact ⟨[], v, by simp, List.nil_prefix⟩
  | @cons p q r rs hr hrest ih =>
    subst hp
    cases hr with
    | operation hr =>
      obtain ⟨ops, v, hops, hprefix⟩ := ih rfl
      refine ⟨r :: ops, v, ?_, List.cons_prefix_cons.2 ⟨rfl, hprefix⟩⟩
      intro r' hr'
      rcases List.mem_cons.1 hr' with rfl | hr'
      · exact hr
      · exact hops r' hr'
    | ret v =>
      refine ⟨[], v, by simp, ?_⟩
      exact List.cons_prefix_cons.2 ⟨rfl, path_returned hrest⟩

theorem path_created [Nonempty ν] {rs : List (Request ν)} (h : Path .created rs) :
    ∃ ops v, (∀ r ∈ ops, r.IsOperation) ∧ rs <+: .position :: (ops ++ [.ret v, .finalize]) := by
  cases h with
  | nil =>
    obtain ⟨v⟩ := ‹Nonempty ν›
    exact ⟨[], v, by simp, List.nil_prefix⟩
  | cons h hrest =>
    cases h
    obtain ⟨ops, v, hops, hbody⟩ := path_body hrest
    exact ⟨ops, v, hops, List.cons_prefix_cons.2 ⟨rfl, hbody⟩⟩

theorem lifecycle_of_path [Nonempty ν] {rs : List (Request ν)} (h : Path .idle rs) :
    Lifecycle rs := by
  cases h with
  | nil =>
    obtain ⟨v⟩ := ‹Nonempty ν›
    exact ⟨"", [], v, by simp, List.nil_prefix⟩
  | cons h hrest =>
    cases h with
    | create name =>
      obtain ⟨ops, v, hops, hcreated⟩ := path_created hrest
      exact ⟨name, ops, v, hops, List.cons_prefix_cons.2 ⟨rfl, hcreated⟩⟩

/-- The contract holds for any driver. What is granted is the beginning of the life of a unit; a
    request for bytecode that is not granted changes nothing, and with any target a request that
    fails leaves phase and name. -/
theorem contract_holds :
    (∀ (functions : Math.FunctionTable) (rs : List (Request Handle)),
      let xs := exchanges Bytecode.target (.fresh (.empty functions)) rs
      Lifecycle (granted xs) ∧ ∀ x ∈ xs,
        ((∃ reply, x.outcome = .ok reply) ↔
          x.before.IsDue x.request ∧ x.before.state.Suits x.request) ∧
        ∀ f, x.outcome = .error f → (∃ e, f = .backend e) ∧ x.after = x.before) ∧
    ∀ {σ ν υ : Type} [Nonempty ν] (t : Target σ ν υ) (s : σ) (rs : List (Request ν)),
      let xs := exchanges t (.fresh s) rs
      Lifecycle (granted xs) ∧ ∀ x ∈ xs, ∀ f, x.outcome = .error f →
        x.after.phase = x.before.phase ∧ x.after.unitName = x.before.unitName ∧
          ((∃ e, f = .backend e) ∧ x.after = x.before ∨
            (t.serve x.before.unitName x.request).runOn x.before.state =
              (.error f, x.after.state)) := by
  have hlife : ∀ {σ ν υ : Type} [Nonempty ν] (t : Target σ ν υ) (s : σ) (rs : List (Request ν)),
      Lifecycle (granted (exchanges t (.fresh s) rs)) := fun t s rs =>
    lifecycle_of_path (path_granted t (.fresh s) rs)
  refine ⟨fun functions rs => ⟨hlife _ _ _, fun x hx => ?_⟩,
    fun t s rs => ⟨hlife t s rs, fun x hx f hf => ?_⟩⟩
  · have hanswer := mem_exchanges hx
    rcases Bytecode.answer_granted_or_unchanged x.before x.request with
      ⟨⟨reply, b', hok⟩, hdue⟩ | ⟨⟨e, herror⟩, hnot⟩
    · rw [hanswer] at hok
      obtain ⟨hreply, -⟩ := Prod.mk.inj hok
      refine ⟨⟨fun _ => hdue, fun _ => ⟨reply, hreply⟩⟩, fun f hf => ?_⟩
      cases hreply.symm.trans hf
    · rw [hanswer] at herror
      obtain ⟨houtcome, hafter⟩ := Prod.mk.inj herror
      refine ⟨⟨?_, fun h => absurd h hnot⟩, fun f hf => ?_⟩
      · rintro ⟨reply, hreply⟩
        cases houtcome.symm.trans hreply
      · exact ⟨⟨e, Except.error.inj (hf.symm.trans houtcome)⟩, hafter⟩
  · have hanswer := mem_exchanges hx
    rw [hf] at hanswer
    exact answer_eq_error t hanswer

/-- A constant before there is a body, an operand that nothing made and a return after the return
    are refused, and the unit is finished all the same. -/
theorem contract_holds_despite_refusals :
    Lifecycle ([.create "unit" .entry, .position, .const 1.0, .ret (.register 0), .finalize] :
      List (Request Handle)) :=
  (contract_holds.1 [] [.const 1.0, .create "unit" .entry, .position,
    .binary .add (.register 0) (.register 0), .const 1.0, .ret (.register 0), .ret (.register 0),
    .finalize]).1

end Backend

end ArithCompiler
