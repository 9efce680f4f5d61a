/-! Names bound to values. A later binding of a name replaces the earlier one in its place, so that
    every name is bound at most once. -/

namespace Minterm

abbrev Bindings (α : Type) := List (String × α)

namespace Bindings
variable {α β : Type}

def set : Bindings α → String → α → Bindings α
  | [], name, value => [(name, value)]
  | (other, old) :: rest, name, value =>
    if other = name then (name, value) :: rest else (other, old) :: set rest name value

/-- Binds the names of a list one after another. -/
def setAll (bindings : Bindings α) (pairs : List (String × α)) : Bindings α :=
  pairs.foldl (fun bindings (name, value) => bindings.set name value) bindings

/-- The bindings of a list in which a name may occur more than once: the last occurrence counts. -/
def ofList (pairs : List (String × α)) : Bindings α := setAll [] pairs

def value? (bindings : Bindings α) (name : String) : Option α := bindings.lookup name

def names (bindings : Bindings α) : List String := bindings.map (·.1)

def values (bindings : Bindings α) : List α := bindings.map (·.2)

theorem value?_cons (pair : String × α) (rest : Bindings α) (name : String) :
    value? (pair :: rest) name = if name = pair.1 then some pair.2 else rest.value? name := by
  unfold value?
  rw [List.lookup_cons]
  by_cases h : name = pair.1
  · simp [h]
  · simp [beq_eq_false_iff_ne.mpr h, h]

theorem value?_set (bindings : Bindings α) (name other : String) (value : α) :
    (bindings.set name value).value? other = if other = name then some value else bindings.value? other := by
  induction bindings with
  | nil => exact value?_cons (name, value) [] other
  | cons pair rest ih =>
    obtain ⟨n, v⟩ := pair
    unfold set
    split
    · rename_i hn
      subst hn
      rw [value?_cons, value?_cons]
      split <;> rfl
    · rename_i hn
      rw [value?_cons, value?_cons, ih]
      by_cases ho : other = n
      · subst ho
        simp [hn]
      · simp [ho]

end Bindings
end Minterm
