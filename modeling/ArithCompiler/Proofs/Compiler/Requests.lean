import ArithCompiler.Proofs.Compiler.Resolution

set_option autoImplicit false

/-!
# What a compilation asks for

Whatever backend it drives, a compilation that comes to its end has opened a unit, asked for the
lines of the tree one after another, and closed the unit with a return of the last handle. A line
names its operands by the handles that were given for them.
-/

namespace ArithCompiler

open Resolver (Resolves)

variable {σ ν υ : Type}

section Requests

variable [Inhabited ν]

def Line.request (hs : List ν) : Line → Request ν
  | const v => .const v
  | binary op i j => .binary op (pick hs i) (pick hs j)
  | call f is => .call f (is.map (pick hs))

theorem Line.request_append {hs : List ν} {l : Line} (h : ∀ i ∈ l.operands, i < hs.length)
    (more : List ν) : l.request (hs ++ more) = l.request hs := by
  cases l with
  | const v => rfl
  | binary op i j =>
    have hi : i < hs.length := h i (by simp [operands])
    have hj : j < hs.length := h j (by simp [operands])
    rw [request, pick_append hi, pick_append hj, request]
  | call f is =>
    have his : is.map (pick (hs ++ more)) = is.map (pick hs) :=
      List.map_congr_left fun i hi => pick_append (h i hi) more
    rw [request, his, request]

end Requests

/-! ## Requests in a row -/

namespace Backend

inductive Grants (t : Target σ ν υ) :
    Backend σ → List (Request ν × Reply ν υ) → Backend σ → Prop
  | nil (b : Backend σ) : Grants t b [] b
  | cons {b b₁ b' : Backend σ} {r : Request ν} {reply : Reply ν υ}
      {rest : List (Request ν × Reply ν υ)} :
      (answer t r).runOn b = (.ok reply, b₁) → Grants t b₁ rest b' →
        Grants t b ((r, reply) :: rest) b'

variable {t : Target σ ν υ} {b b' : Backend σ}

theorem grants_cons_iff {r : Request ν} {reply : Reply ν υ} {rest : List (Request ν × Reply ν υ)} :
    Grants t b ((r, reply) :: rest) b' ↔
      ∃ b₁, (answer t r).runOn b = (.ok reply, b₁) ∧ Grants t b₁ rest b' := by
  constructor
  · intro h
    cases h with
    | cons hr hrest => exact ⟨_, hr, hrest⟩
  · rintro ⟨b₁, hr, hrest⟩
    exact .cons hr hrest

theorem grants_append_iff {xs ys : List (Request ν × Reply ν υ)} :
    Grants t b (xs ++ ys) b' ↔ ∃ b₁, Grants t b xs b₁ ∧ Grants t b₁ ys b' := by
  induction xs generalizing b with
  | nil =>
    constructor
    · exact fun h => ⟨b, .nil b, h⟩
    · rintro ⟨b₁, hnil, h⟩
      cases hnil
      exact h
  | cons x xs ih =>
    obtain ⟨r, reply⟩ := x
    rw [List.cons_append, grants_cons_iff]
    constructor
    · rintro ⟨b₁, hr, hrest⟩
      obtain ⟨b₂, hxs, hys⟩ := ih.1 hrest
      exact ⟨b₂, .cons hr hxs, hys⟩
    · rintro ⟨b₂, hall, hys⟩
      obtain ⟨b₁, hr, hxs⟩ := grants_cons_iff.1 hall
      exact ⟨b₁, hr, ih.2 ⟨b₂, hxs, hys⟩⟩

theorem grants_pair_iff {r r' : Request ν} {reply reply' : Reply ν υ} :
    Grants t b [(r, reply), (r', reply')] b' ↔
      ∃ b₁, (answer t r).runOn b = (.ok reply, b₁) ∧ (answer t r').runOn b₁ = (.ok reply', b') := by
  constructor
  · intro h
    obtain ⟨b₁, hr, hrest⟩ := grants_cons_iff.1 h
    obtain ⟨b₂, hr', hnil⟩ := grants_cons_iff.1 hrest
    cases hnil
    exact ⟨b₁, hr, hr'⟩
  · rintro ⟨b₁, hr, hr'⟩
    exact .cons hr (.cons hr' (.nil b'))

theorem answer_done_iff {x : Step (Backend σ) Unit} :
    (do x; return .done : Step (Backend σ) (Reply ν υ)).runOn b = (.ok .done, b') ↔
      x.runOn b = (.ok (), b') :=
  Step.runOn_bind_pure_eq_ok_iff (f := fun _ : Unit => (.done : Reply ν υ)) fun _ _ _ => rfl

theorem opening_eq_ok_iff :
    (guarded t).opening.runOn b = (.ok (), b') ↔
      Grants t b [(.create entryPoint .entry, .done), (.position, .done)] b' := by
  rw [grants_pair_iff, Target.opening, Step.runOn_bind_eq_ok_iff]
  constructor
  · rintro ⟨_, b₁, hcreate, hposition⟩
    exact ⟨b₁, answer_done_iff.2 hcreate, answer_done_iff.2 hposition⟩
  · rintro ⟨b₁, hcreate, hposition⟩
    exact ⟨(), b₁, answer_done_iff.1 hcreate, answer_done_iff.1 hposition⟩

theorem closing_eq_ok_iff {v : ν} {u : υ} :
    ((guarded t).closing v).runOn b = (.ok u, b') ↔
      Grants t b [(.ret v, .done), (.finalize, .unit u)] b' := by
  have hunit : ∀ b₁, (answer t .finalize).runOn b₁ = (.ok (.unit u), b') ↔
      (finalize t).runOn b₁ = (.ok u, b') := fun b₁ =>
    Step.runOn_bind_pure_eq_ok_iff fun _ _ => Reply.unit.inj
  rw [grants_pair_iff, Target.closing, Step.runOn_bind_eq_ok_iff]
  constructor
  · rintro ⟨_, b₁, hret, hfinalize⟩
    exact ⟨b₁, answer_done_iff.2 hret, (hunit b₁).2 hfinalize⟩
  · rintro ⟨b₁, hret, hfinalize⟩
    exact ⟨(), b₁, answer_done_iff.1 hret, (hunit b₁).1 hfinalize⟩

section Lines

variable [Inhabited ν]

/-- The requests for lines and the handles that were given for them, when these are the handles of
    all lines so far. -/
def lineGrants (hs : List ν) (ls : List Line) (new : List ν) : List (Request ν × Reply ν υ) :=
  List.zipWith (fun l v => (l.request hs, .value v)) ls new

def unitGrants (ls : List Line) (result : Nat) (hs : List ν) (u : υ) :
    List (Request ν × Reply ν υ) :=
  [(.create entryPoint .entry, .done), (.position, .done)] ++
    (lineGrants hs ls hs ++ [(.ret (pick hs result), .done), (.finalize, .unit u)])

variable (value : String → Float)

theorem answer_line_eq_ok_iff {hs : List ν} {l : Line} {v : ν} :
    (answer t (l.request hs)).runOn b = (.ok (.value v), b') ↔
      (((guarded t).plain value).line hs l).runOn b = (.ok v, b') := by
  have hanswer : answer t (l.request hs)
      = (do return .value (← ((guarded t).plain value).line hs l)) := by
    cases l <;> rfl
  rw [hanswer, Step.runOn_bind_pure_eq_ok_iff fun _ _ => Reply.value.inj]

theorem play_eq_ok_iff {ls : List Line} {hs hs' : List ν} (h : Tree.Ordered hs.length ls) :
    (((guarded t).plain value).play ls hs).runOn b = (.ok hs', b') ↔
      ∃ new, new.length = ls.length ∧ hs' = hs ++ new ∧ Grants t b (lineGrants hs' ls new) b' := by
  induction ls generalizing hs b with
  | nil =>
    constructor
    · intro hplay
      cases hplay
      exact ⟨[], rfl, (List.append_nil _).symm, .nil _⟩
    · rintro ⟨new, hlength, rfl, hgrants⟩
      obtain rfl := List.length_eq_zero_iff.1 hlength
      cases hgrants
      rw [List.append_nil]
      exact Step.runOn_pure _ _
  | cons l ls ih =>
    have hrest : ∀ v, Tree.Ordered (hs ++ [v]).length ls := fun v => by
      rw [List.length_append]
      exact h.2
    have hrequest : ∀ v new, l.request (hs ++ v :: new) = l.request hs := fun v new =>
      Line.request_append h.1 (v :: new)
    rw [Operations.play]
    constructor
    · intro hplay
      obtain ⟨v, b₁, hl, hls⟩ := Step.runOn_bind_eq_ok hplay
      obtain ⟨new, hlength, rfl, hgrants⟩ := (ih (hrest v)).1 hls
      rw [List.append_assoc, List.singleton_append] at hgrants ⊢
      refine ⟨v :: new, congrArg (· + 1) hlength, rfl, .cons ?_ hgrants⟩
      rw [hrequest]
      exact (answer_line_eq_ok_iff value).2 hl
    · rintro ⟨new, hlength, rfl, hgrants⟩
      cases new with
      | nil => cases hlength
      | cons v new =>
        obtain ⟨b₁, hl, hgrants⟩ := grants_cons_iff.1 hgrants
        rw [hrequest] at hl
        rw [Step.runOn_bind_ok ((answer_line_eq_ok_iff value).1 hl)]
        refine (ih (hrest v)).2 ⟨new, Nat.succ.inj hlength, ?_, hgrants⟩
        rw [List.append_assoc, List.singleton_append]

/-! ## A whole compilation -/

theorem tree_eq_ok_iff {r : Resolver} {e : Expr} {v : ν} :
    (((guarded t).operations r).tree e).runOn b = (.ok v, b') ↔
      Resolves r e ∧ ∃ hs, hs.length = e.inner + 1 ∧ pick hs e.inner = v ∧
        Grants t b (lineGrants hs (e.lines r.value 0) hs) b' := by
  have hordered : Tree.Ordered ([] : List ν).length (e.lines r.value 0) :=
    Tree.ordered_lines r.value 0 e
  constructor
  · intro h
    have hresolves := (guarded t).resolves_of_runOn h
    rw [(guarded t).operations_tree hresolves,
      Operations.tree_eq_play ((guarded t).plain_plain r.value) e [],
      Step.runOn_map_eq_ok_iff] at h
    obtain ⟨hs, hplay, hv⟩ := h
    obtain ⟨_, hlength, rfl, hgrants⟩ := (play_eq_ok_iff r.value hordered).1 hplay
    rw [Tree.lines_length] at hlength
    rw [List.length_nil, Nat.zero_add] at hv
    exact ⟨hresolves, hs, hlength, hv, hgrants⟩
  · rintro ⟨hresolves, hs, hlength, hv, hgrants⟩
    rw [(guarded t).operations_tree hresolves,
      Operations.tree_eq_play ((guarded t).plain_plain r.value) e [],
      Step.runOn_map_eq_ok_iff]
    refine ⟨hs, (play_eq_ok_iff r.value hordered).2 ⟨hs, ?_, rfl, hgrants⟩, ?_⟩
    · rw [Tree.lines_length, hlength]
    · rw [List.length_nil, Nat.zero_add, hv]

theorem unit_eq_ok_iff {r : Resolver} {e : Expr} {u : υ} :
    ((guarded t).unit r e).runOn b = (.ok u, b') ↔
      Resolves r e ∧ ∃ hs, hs.length = e.inner + 1 ∧
        Grants t b (unitGrants (e.lines r.value 0) e.inner hs u) b' := by
  simp only [unitGrants, grants_append_iff, ← opening_eq_ok_iff, ← closing_eq_ok_iff, Target.unit,
    Step.runOn_bind_eq_ok_iff, tree_eq_ok_iff]
  constructor
  · rintro ⟨_, b₁, hopening, v, b₂, ⟨hresolves, hs, hlength, rfl, hgrants⟩, hclosing⟩
    exact ⟨hresolves, hs, hlength, b₁, hopening, b₂, hgrants, hclosing⟩
  · rintro ⟨hresolves, hs, hlength, b₁, hopening, b₂, hgrants, hclosing⟩
    exact ⟨(), b₁, hopening, _, b₂, ⟨hresolves, hs, hlength, rfl, hgrants⟩, hclosing⟩

end Lines

end Backend

/-- A compilation comes to its end with a unit if and only if all names and calls of the tree can be
    resolved and the backend grants the requests for the lines of the tree. Then it has asked for
    nothing else, and no operand is left. -/
theorem Compiler.compile_eq_ok_iff [Inhabited ν] {c : Compiler σ ν υ}
    (hc : c.imbalance = .balanced) (e : Expr) (w : Work σ ν) (u : υ) (b : Backend σ) :
    (∃ log, (c.compile e).runOn w = (.ok u, ⟨b, [], log⟩)) ↔
      Resolves c.resolver e ∧ ∃ hs, hs.length = e.inner + 1 ∧
        Backend.Grants c.target w.backend
          (Backend.unitGrants (e.lines c.resolver.value 0) e.inner hs u) b := by
  rw [← Backend.unit_eq_ok_iff]
  obtain ⟨stack, log, hcompile, hstack⟩ := Compiler.compile_runOn hc e w
  rw [hcompile] at hstack ⊢
  constructor
  · rintro ⟨log', h⟩
    obtain ⟨houtcome, hwork⟩ := Prod.mk.inj h
    obtain ⟨hbackend, -⟩ := Work.mk.inj hwork
    exact Prod.ext houtcome hbackend
  · intro h
    rw [h] at hstack ⊢
    obtain rfl := hstack u rfl
    exact ⟨log, rfl⟩

end ArithCompiler
