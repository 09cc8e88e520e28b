set_option autoImplicit false

/-!
# Bindings in order of definition

Names with their values. A name that is bound again keeps its place and takes the new value.
-/

namespace ArithCompiler

abbrev Bindings (α : Type) := List (String × α)

namespace Bindings

variable {α : Type}

def set (name : String) (value : α) : Bindings α → Bindings α
  | [] => [(name, value)]
  | (n, v) :: rest => if n = name then (n, value) :: rest else (n, v) :: set name value rest

def setAll (b : Bindings α) (pairs : List (String × α)) : Bindings α :=
  pairs.foldl (fun b p => b.set p.1 p.2) b

def get? (b : Bindings α) (name : String) : Option α := b.lookup name

theorem get?_set (b : Bindings α) (name other : String) (value : α) :
    (b.set name value).get? other = if other = name then some value else b.get? other := by
  induction b with
  | nil =>
    by_cases h : other = name
    · simp [set, get?, h]
    · have hb : (other == name) = false := by simpa using h
      simp [set, get?, List.lookup_cons, h, hb]
  | cons p rest ih =>
    obtain ⟨n, v⟩ := p
    simp only [get?] at ih
    by_cases hn : n = name <;> by_cases h : other = n
    · subst hn
      simp [set, get?, h]
    · have hb : (other == n) = false := by simpa using h
      subst hn
      simp [set, get?, List.lookup_cons, h, hb]
    · subst h
      simp [set, get?, hn]
    · have hb : (other == n) = false := by simpa using h
      simp [set, get?, List.lookup_cons, hn, hb, ih]

/-- The last of the pairs with the name counts, and what was bound before if there is none. -/
theorem get?_setAll (b : Bindings α) (pairs : List (String × α)) (name : String) :
    (b.setAll pairs).get? name = (get? pairs.reverse name).or (b.get? name) := by
  induction pairs generalizing b with
  | nil => rfl
  | cons p pairs ih =>
    have hlast : get? [p] name = if name = p.1 then some p.2 else none :=
      get?_set [] p.1 name p.2
    have hreverse : get? (p :: pairs).reverse name
        = (get? pairs.reverse name).or (get? [p] name) := by
      rw [List.reverse_cons]
      exact List.lookup_append
    change ((b.set p.1 p.2).setAll pairs).get? name = _
    rw [ih, hreverse, hlast, get?_set, Option.or_assoc]
    split <;> rfl

theorem mem_of_get? {b : Bindings α} {name : String} {value : α}
    (h : b.get? name = some value) : (name, value) ∈ b := by
  obtain ⟨before, after, rfl, -⟩ := List.lookup_eq_some_iff.1 h
  exact List.mem_append_right _ List.mem_cons_self

end Bindings

end ArithCompiler
