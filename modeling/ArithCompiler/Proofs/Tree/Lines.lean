import ArithCompiler.Proofs.Tree.Operations

set_option autoImplicit false

/-!
# The lines of a tree

A tree as straight-line code: one line for each node, parts before the node, operands named by the
places of the lines that gave them. Going through the tree and going through its lines is the same,
whatever is done at the nodes.
-/

namespace ArithCompiler

inductive Line where
  | const (value : Float)
  | binary (op : Operator) (left right : Nat)
  | call (function : String) (args : List Nat)
  deriving DecidableEq

namespace Line

def operands : Line → List Nat
  | const _ => []
  | binary _ left right => [left, right]
  | call _ args => args

def call? : Line → Option (String × Nat)
  | call f args => some (f, args.length)
  | _ => none

theorem forall_calls_cons {P : String × Nat → Prop} {l : Line} {ls : List Line} :
    (∀ q ∈ (l :: ls).filterMap call?, P q) ↔
      (∀ q, l.call? = some q → P q) ∧ ∀ q ∈ ls.filterMap call?, P q := by
  rw [List.filterMap_cons]
  cases l.call? with
  | none => simp
  | some q => simp

end Line

namespace Tree

mutual
/-- The number of nodes below the root. -/
def inner : Expr → Nat
  | number _ => 0
  | name _ => 0
  | binary _ l r => (inner l + 1) + (inner r + 1)
  | call _ args => sizes args
  | foreign x => nomatch x

def sizes : List Expr → Nat
  | [] => 0
  | e :: es => (inner e + 1) + sizes es
end

def roots (start : Nat) : List Expr → List Nat
  | [] => []
  | e :: es => (start + e.inner) :: roots (start + (e.inner + 1)) es

section Lines

variable (value : String → Float)

mutual
/-- The lines of a tree when `start` lines stand before them. -/
def lines (start : Nat) : Expr → List Line
  | number v => [.const v]
  | name x => [.const (value x)]
  | binary op l r =>
    lines start l ++ (lines (start + (l.inner + 1)) r ++
      [.binary op (start + l.inner) (start + (l.inner + 1) + r.inner)])
  | call f args => linesAll start args ++ [.call f (roots start args)]
  | foreign x => nomatch x

def linesAll (start : Nat) : List Expr → List Line
  | [] => []
  | e :: es => lines start e ++ linesAll (start + (e.inner + 1)) es
end

theorem roots_length (start : Nat) (es : List Expr) : (roots start es).length = es.length := by
  induction es generalizing start with
  | nil => rfl
  | cons e es ih => rw [roots, List.length_cons, ih, List.length_cons]

theorem linesAll_length_of {es : List Expr}
    (h : ∀ e ∈ es, ∀ start, (lines value start e).length = e.inner + 1) (start : Nat) :
    (linesAll value start es).length = sizes es := by
  induction es generalizing start with
  | nil => rfl
  | cons e es ih =>
    rw [linesAll, List.length_append, h e List.mem_cons_self,
      ih (fun a ha => h a (List.mem_cons_of_mem _ ha)), sizes]

theorem lines_length (start : Nat) (e : Expr) : (lines value start e).length = e.inner + 1 := by
  induction e using exprInduction generalizing start with
  | number v => rfl
  | name x => rfl
  | binary op l r ihl ihr =>
    rw [lines, List.length_append, List.length_append, ihl, ihr, inner]
    rfl
  | call f args ih =>
    rw [lines, List.length_append, linesAll_length_of value fun a ha start => ih a ha start, inner]
    rfl

theorem inner_lt_lines (start : Nat) (e : Expr) : e.inner < (lines value start e).length := by
  rw [lines_length]
  exact Nat.lt_succ_self _

theorem linesAll_length (start : Nat) (es : List Expr) :
    (linesAll value start es).length = sizes es :=
  linesAll_length_of value (fun e _ start => lines_length value start e) start

theorem lines_calls (start : Nat) (e : Expr) :
    (lines value start e).filterMap Line.call? = e.calls := by
  induction e using exprInduction generalizing start with
  | number v => rfl
  | name x => rfl
  | binary op l r ihl ihr =>
    rw [lines, List.filterMap_append, List.filterMap_append, ihl, ihr]
    exact congrArg _ (List.append_nil _)
  | call f args ih =>
    have hargs : (linesAll value start args).filterMap Line.call?
        = collectAll (fun _ => []) (fun _ => []) (fun g n => [(g, n)]) args := by
      clear f
      induction args generalizing start with
      | nil => rfl
      | cons a args iha =>
        rw [linesAll, List.filterMap_append, ih a List.mem_cons_self,
          iha fun b hb => ih b (List.mem_cons_of_mem _ hb)]
        rfl
    rw [lines, List.filterMap_append, hargs]
    change _ ++ [(f, (roots start args).length)] = _
    rw [roots_length]
    rfl

end Lines

def Ordered : Nat → List Line → Prop
  | _, [] => True
  | start, l :: ls => (∀ i ∈ l.operands, i < start) ∧ Ordered (start + 1) ls

theorem ordered_append {start : Nat} {ls ls' : List Line} (h : Ordered start ls)
    (h' : Ordered (start + ls.length) ls') : Ordered start (ls ++ ls') := by
  induction ls generalizing start with
  | nil => exact h'
  | cons l ls ih =>
    refine ⟨h.1, ih h.2 ?_⟩
    rw [show start + 1 + ls.length = start + (l :: ls).length by rw [List.length_cons]; omega]
    exact h'

theorem Ordered.take {start : Nat} {ls : List Line} (h : Ordered start ls) (n : Nat) :
    Ordered start (ls.take n) := by
  induction ls generalizing start n with
  | nil =>
    rw [List.take_nil]
    trivial
  | cons l ls ih =>
    cases n with
    | zero => trivial
    | succ n => exact ⟨h.1, ih h.2 n⟩

theorem operands_lt {start k : Nat} {ls : List Line} {l : Line} (h : Ordered start ls)
    (hl : ls[k]? = some l) : ∀ i ∈ l.operands, i < start + k := by
  induction ls generalizing start k with
  | nil => cases hl
  | cons l' ls ih =>
    cases k with
    | zero =>
      cases hl
      exact h.1
    | succ k =>
      intro i hi
      have := ih h.2 hl i hi
      omega

theorem lt_of_mem_roots {start i : Nat} {es : List Expr} (h : i ∈ roots start es) :
    i < start + sizes es := by
  induction es generalizing start with
  | nil => cases h
  | cons e es ih =>
    rw [sizes]
    rcases List.mem_cons.1 h with rfl | h
    · omega
    · have := ih h
      omega

theorem ordered_lines (value : String → Float) (start : Nat) (e : Expr) :
    Ordered start (lines value start e) := by
  induction e using exprInduction generalizing start with
  | number v => exact ⟨nofun, trivial⟩
  | name x => exact ⟨nofun, trivial⟩
  | binary op l r ihl ihr =>
    refine ordered_append (ihl start) ?_
    rw [lines_length]
    refine ordered_append (ihr _) ⟨?_, trivial⟩
    intro i hi
    rw [lines_length]
    simp only [Line.operands, List.mem_cons, List.not_mem_nil, or_false] at hi
    omega
  | call f args ih =>
    have hargs : Ordered start (linesAll value start args) := by
      clear f
      induction args generalizing start with
      | nil => trivial
      | cons a args iha =>
        refine ordered_append (ih a List.mem_cons_self start) ?_
        rw [lines_length]
        exact iha (fun b hb => ih b (List.mem_cons_of_mem _ hb)) _
    refine ordered_append hargs ⟨?_, trivial⟩
    intro i hi
    rw [linesAll_length]
    exact lt_of_mem_roots hi

end Tree

/-! ## Going through lines -/

section Play

variable {m : Type → Type} {ν : Type} [Inhabited ν]

def pick (hs : List ν) (place : Nat) : ν := hs.getD place default

theorem pick_append {hs : List ν} {place : Nat} (h : place < hs.length) (more : List ν) :
    pick (hs ++ more) place = pick hs place := by
  simp [pick, List.getElem?_append_left h]

theorem pick_concat (hs : List ν) (v : ν) : pick (hs ++ [v]) hs.length = v := by
  simp [pick]

/-- What holds of each place and its value still does when the values have grown by one. -/
theorem forall_place_concat {P : Nat → ν → Prop} {vs : List ν} {v : ν}
    (h : ∀ i < vs.length, P i (pick vs i)) (hv : P vs.length v) :
    ∀ i < (vs ++ [v]).length, P i (pick (vs ++ [v]) i) := by
  intro i hi
  rw [List.length_append, List.length_singleton] at hi
  by_cases hlast : i = vs.length
  · subst hlast
    rw [pick_concat]
    exact hv
  · have hlt : i < vs.length := by omega
    rw [pick_append hlt]
    exact h i hlt

/-- What stands at each place of two lists still does when both have grown by one. -/
theorem forall_pick_concat {α β : Type} [Inhabited α] [Inhabited β] {P : α → β → Prop}
    {as : List α} {bs : List β} (hlength : as.length = bs.length)
    (h : ∀ i < bs.length, P (pick as i) (pick bs i)) {a : α} {b : β} (hab : P a b) :
    ∀ i < (bs ++ [b]).length, P (pick (as ++ [a]) i) (pick (bs ++ [b]) i) := by
  refine forall_place_concat (fun i hi => ?_) ?_
  · rw [pick_append (by omega)]
    exact h i hi
  · rw [← hlength, pick_concat]
    exact hab

namespace Operations

def line (o : Operations m ν) (hs : List ν) : Line → m ν
  | .const v => o.number v
  | .binary op i j => o.binary op (pick hs i) (pick hs j)
  | .call f is => o.call f (is.map (pick hs))

variable [Monad m]

def play (o : Operations m ν) : List Line → List ν → m (List ν)
  | [], hs => pure hs
  | l :: ls, hs => do
    let v ← o.line hs l
    o.play ls (hs ++ [v])

structure Plain (o : Operations m ν) (value : String → Float) : Prop where
  name : ∀ x, o.name x = o.number (value x)
  enter : ∀ f, o.enter f = pure ()

variable [LawfulMonad m] (o : Operations m ν)

theorem play_append (ls ls' : List Line) (hs : List ν) :
    o.play (ls ++ ls') hs = o.play ls hs >>= o.play ls' := by
  induction ls generalizing hs with
  | nil => rw [List.nil_append, play, pure_bind]
  | cons l ls ih =>
    rw [List.cons_append, play, play, bind_assoc]
    exact bind_congr fun v => ih _

theorem play_singleton (l : Line) (hs : List ν) :
    o.play [l] hs = (fun v => hs ++ [v]) <$> o.line hs l := by
  rw [play, ← bind_pure_comp]
  rfl

theorem play_extends (ls : List Line) (hs : List ν) :
    Returns (o.play ls hs) fun hs' => ∃ new, new.length = ls.length ∧ hs' = hs ++ new := by
  induction ls generalizing hs with
  | nil => exact .pure ⟨[], rfl, (List.append_nil hs).symm⟩
  | cons l ls ih =>
    rw [play]
    refine (Returns.trivial _).bind fun v _ => (ih (hs ++ [v])).imp ?_
    rintro hs' ⟨new, hnew, rfl⟩
    exact ⟨v :: new, by rw [List.length_cons, hnew, List.length_cons], by simp⟩

variable {o} {value : String → Float}

/-- What is read off the values of all lines but the last, and then done as the last. -/
theorem play_concat (ls : List Line) (l : Line) (hs : List ν) :
    (pick · (hs.length + ls.length)) <$> o.play (ls ++ [l]) hs
      = o.play ls hs >>= fun hs' => o.line hs' l := by
  rw [play_append, map_bind]
  refine (o.play_extends ls hs).bind_eq ?_
  rintro hs' ⟨new, hnew, rfl⟩
  rw [play_singleton, Functor.map_map, ← hnew, ← List.length_append]
  simp only [pick_concat]
  exact id_map _

theorem trees_eq_play {es : List Expr}
    (h : ∀ e ∈ es, ∀ hs, o.tree e
      = (pick · (hs.length + e.inner)) <$> o.play (Tree.lines value hs.length e) hs) (hs : List ν) :
    o.trees es = (fun hs' => (Tree.roots hs.length es).map (pick hs'))
      <$> o.play (Tree.linesAll value hs.length es) hs := by
  induction es generalizing hs with
  | nil => rw [trees, Tree.linesAll, play, map_pure]; rfl
  | cons e es ih =>
    rw [trees, Tree.linesAll, play_append, h e List.mem_cons_self hs, bind_map_left, map_bind]
    refine (o.play_extends _ hs).bind_eq ?_
    rintro hs' ⟨new, hnew, rfl⟩
    have hlength : (hs ++ new).length = hs.length + (e.inner + 1) := by
      rw [List.length_append, hnew, Tree.lines_length]
    rw [ih (fun a ha => h a (List.mem_cons_of_mem _ ha)) (hs ++ new), hlength, bind_map_left]
    simp only [bind_pure_comp]
    rw [← bind_pure_comp, ← bind_pure_comp]
    refine (o.play_extends _ (hs ++ new)).bind_eq ?_
    rintro hs'' ⟨more, -, rfl⟩
    have hplace : hs.length + e.inner < (hs ++ new).length := by omega
    rw [Tree.roots, List.map_cons, pick_append hplace]

/-- Going through a tree is going through its lines. -/
theorem tree_eq_play (ho : o.Plain value) (e : Expr) (hs : List ν) :
    o.tree e = (pick · (hs.length + e.inner)) <$> o.play (Tree.lines value hs.length e) hs := by
  induction e using Tree.exprInduction generalizing hs with
  | number v =>
    rw [tree, Tree.lines, play_singleton, Functor.map_map]
    simp only [Tree.inner, Nat.add_zero, pick_concat]
    exact (id_map _).symm
  | name x =>
    rw [tree, ho.name, Tree.lines, play_singleton, Functor.map_map]
    simp only [Tree.inner, Nat.add_zero, pick_concat]
    exact (id_map _).symm
  | binary op l r ihl ihr =>
    have hinner : (Tree.binary op l r : Expr).inner
        = (Tree.lines value hs.length l
          ++ Tree.lines value (hs.length + (l.inner + 1)) r).length := by
      rw [List.length_append, Tree.lines_length, Tree.lines_length, Tree.inner]
    rw [tree, Tree.lines, ← List.append_assoc, hinner, play_concat, play_append, bind_assoc,
      ihl hs, bind_map_left]
    refine (o.play_extends _ hs).bind_eq ?_
    rintro hs' ⟨new, hnew, rfl⟩
    have hlength : (hs ++ new).length = hs.length + (l.inner + 1) := by
      rw [List.length_append, hnew, Tree.lines_length]
    rw [ihr (hs ++ new), bind_map_left, hlength]
    refine (o.play_extends _ (hs ++ new)).bind_eq ?_
    rintro hs'' ⟨more, -, rfl⟩
    have hplace : hs.length + l.inner < (hs ++ new).length := by omega
    rw [line, pick_append hplace]
  | call f args ih =>
    have hinner : (Tree.call f args : Expr).inner
        = (Tree.linesAll value hs.length args).length := by
      rw [Tree.linesAll_length, Tree.inner]
    rw [tree, ho.enter, pure_bind, Tree.lines, hinner, play_concat, trees_eq_play ih hs,
      bind_map_left]
    rfl

end Operations

end Play

namespace Operations

variable {m : Type → Type} {ν : Type} [Monad m] (o : Operations m ν) (value : String → Float)

def naming : Operations m ν :=
  { o with name := fun x => o.number (value x), enter := fun _ => pure () }

theorem naming_plain : (o.naming value).Plain value := ⟨fun _ => rfl, fun _ => rfl⟩

theorem naming_play [Inhabited ν] (ls : List Line) (hs : List ν) :
    (o.naming value).play ls hs = o.play ls hs := by
  induction ls generalizing hs with
  | nil => rfl
  | cons l ls ih =>
    have hline : (o.naming value).line hs l = o.line hs l := by cases l <;> rfl
    rw [play, play, hline]
    exact bind_congr fun v => ih _

end Operations

end ArithCompiler
