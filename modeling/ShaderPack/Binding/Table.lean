import ShaderPack.Binding.Basic

namespace ShaderPack

/-!
# Tables of bindings

A table keeps bindings in the order in which they were first seen.  It is a list of names
and not a set: a name may stand in it several times.  A binding of unknown kind is never
part of a table, which the type records as `known`.

`ofList_append_singleton` says that a table made from a list is the table that grows by
offering its members one after another.
-/

/-- Bindings of known kind, in order. -/
@[ext]
structure BindingTable where
  toList : List Binding
  known : ∀ b ∈ toList, b.isKnown = true
  deriving DecidableEq

namespace BindingTable

/-- The table without bindings. -/
def empty : BindingTable := ⟨[], by simp⟩

instance : Inhabited BindingTable := ⟨empty⟩

/-- The table of the bindings of known kind in a list. -/
def ofList (bindings : List Binding) : BindingTable :=
  ⟨bindings.filter Binding.isKnown, by simp⟩

/-- Puts a binding at the end of the table, unless its kind is unknown. -/
def push (t : BindingTable) (b : Binding) : BindingTable :=
  if h : b.isKnown = true then
    ⟨t.toList ++ [b], by
      intro c hc
      rcases List.mem_append.mp hc with hc | hc
      · exact t.known c hc
      · simpa [List.mem_singleton.mp hc] using h⟩
  else t

/-- The bindings of one table before those of another. -/
def append (t u : BindingTable) : BindingTable :=
  ⟨t.toList ++ u.toList, by
    intro b hb
    rcases List.mem_append.mp hb with hb | hb
    · exact t.known b hb
    · exact u.known b hb⟩

instance : Append BindingTable := ⟨append⟩

/-- Number of bindings. -/
def length (t : BindingTable) : Nat := t.toList.length

/-- Whether the table has no bindings. -/
def isEmpty (t : BindingTable) : Bool := t.toList.isEmpty

/-- The binding at a place, counted from 0. -/
def get? (t : BindingTable) (index : Nat) : Option Binding := t.toList[index]?

/-- The first binding of a name. -/
def find? (t : BindingTable) (name : String) : Option Binding :=
  t.toList.find? (·.name = name)

/-- The names of the bindings, in order. -/
def names (t : BindingTable) : List String := t.toList.map (·.name)

@[simp] theorem toList_ofList (bindings : List Binding) :
    (ofList bindings).toList = bindings.filter Binding.isKnown := rfl

@[simp] theorem toList_append (t u : BindingTable) :
    (t ++ u).toList = t.toList ++ u.toList := rfl

theorem toList_push (t : BindingTable) (b : Binding) :
    (t.push b).toList = t.toList ++ [b].filter Binding.isKnown := by
  by_cases h : b.isKnown = true <;> simp [push, h]

/-- A table made from a list grows by its members, one after another. -/
theorem ofList_append_singleton (bindings : List Binding) (b : Binding) :
    ofList (bindings ++ [b]) = (ofList bindings).push b := by
  ext1
  simp [toList_push]

/-- A table made from two lists is the one table before the other. -/
theorem ofList_append (bindings others : List Binding) :
    ofList (bindings ++ others) = ofList bindings ++ ofList others := by
  ext1
  simp

/-- A table is the table of its own members. -/
theorem ofList_toList (t : BindingTable) : ofList t.toList = t := by
  ext1
  exact List.filter_eq_self.mpr t.known

end BindingTable

end ShaderPack
