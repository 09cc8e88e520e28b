import ArithCompiler.Tree.Basic

set_option autoImplicit false

/-!
# Traversals

A visitor says for each kind of node what it records before and after the parts of the node, and
whether the parts are visited at all. Parts are visited from left to right. A foreign value stops
the traversal; what was recorded before it stays.
-/

namespace ArithCompiler

structure Reaction (ω : Type) where
  before : List ω
  descend : Bool
  after : List ω

def Reaction.pass {ω : Type} : Reaction ω := ⟨[], true, []⟩

inductive Leaf where
  | number (value : Float)
  | name (text : String)
  | bare

structure Visitor (φ ω : Type) where
  expr : Tree φ → Reaction ω
  binary : Operator → Reaction ω
  call : String → Nat → Reaction ω
  leaf : Leaf → List ω

/-- What was recorded, and the value that stopped the traversal if one did. -/
structure Trail (ω : Type) where
  seen : List ω
  stop : Option Foreign

namespace Trail

variable {ω : Type}

def empty : Trail ω := ⟨[], none⟩

/-- The second after the first, unless the first was stopped. -/
def andThen (a b : Trail ω) : Trail ω :=
  match a.stop with
  | some _ => a
  | none => ⟨a.seen ++ b.seen, b.stop⟩

end Trail

def Reaction.around {ω : Type} (r : Reaction ω) (parts : Trail ω) : Trail ω :=
  (Trail.andThen ⟨r.before, none⟩ (if r.descend then parts else .empty)).andThen ⟨r.after, none⟩

namespace Visitor

variable {φ ω : Type} [Alien φ]

mutual
/-- Visits a node as the kind of node it is, without the reaction to expressions in general. -/
def walk (v : Visitor φ ω) : Tree φ → Trail ω
  | .number x => ⟨v.leaf (.number x), none⟩
  | .name x => ⟨v.leaf (.name x), none⟩
  | .binary op l r =>
    (v.binary op).around (((v.expr l).around (v.walk l)).andThen ((v.expr r).around (v.walk r)))
  | .call f args => (v.call f args.length).around (v.visitAll args)
  | .foreign x =>
    match Alien.kind x with
    | .bareAtom => ⟨v.leaf .bare, none⟩
    | kind => ⟨[], some kind⟩

def visitAll (v : Visitor φ ω) : List (Tree φ) → Trail ω
  | [] => .empty
  | t :: ts => ((v.expr t).around (v.walk t)).andThen (v.visitAll ts)
end

def visit (v : Visitor φ ω) (t : Tree φ) : Trail ω := (v.expr t).around (v.walk t)

/-- Goes through everything and records what `leaf` makes of the leaves. -/
def leaves (leaf : Leaf → List ω) : Visitor φ ω :=
  ⟨fun _ => .pass, fun _ => .pass, fun _ _ => .pass, leaf⟩

end Visitor

end ArithCompiler
