import Mathlib.Data.List.Nodup
import Minterm.Bindings

/-! What is bound when names are bound one after another: every name that is given and no other, once however
    often it is given, and to what it is given last. Because a name is bound only once, its value does not
    hang on the order in which the bindings are kept. -/

namespace Minterm.Bindings
variable {α : Type}

theorem setAll_cons (bindings : Bindings α) (name : String) (value : α) (pairs : List (String × α)) :
    bindings.setAll ((name, value) :: pairs) = (bindings.set name value).setAll pairs := rfl

/-! ### Names -/

theorem mem_names {bindings : Bindings α} {name : String} : name ∈ bindings.names ↔ (bindings.value? name).isSome := by
  induction bindings with
  | nil => simp [names, value?]
  | cons pair rest ih =>
    rw [value?_cons, names, List.map_cons, List.mem_cons]
    split
    · rename_i hname
      simp [hname]
    · rename_i hname
      rw [or_iff_right hname]
      exact ih

theorem mem_names_setAll {bindings : Bindings α} {pairs : List (String × α)} {name : String} :
    name ∈ (bindings.setAll pairs).names ↔ name ∈ pairs.map Prod.fst ∨ name ∈ bindings.names := by
  induction pairs generalizing bindings with
  | nil => exact (or_iff_right List.not_mem_nil).symm
  | cons pair pairs ih =>
    rw [setAll_cons, ih, mem_names, mem_names, value?_set, List.map_cons, List.mem_cons]
    by_cases hname : name = pair.1
    · simp [hname]
    · rw [if_neg hname, or_iff_right hname]

theorem isSome_value?_setAll {bindings : Bindings α} {vars : List String} {row : List α}
    (hlength : row.length = vars.length) {name : String} :
    ((bindings.setAll (vars.zip row)).value? name).isSome ↔ name ∈ vars ∨ (bindings.value? name).isSome := by
  rw [← mem_names, mem_names_setAll, List.map_fst_zip (Nat.le_of_eq hlength.symm), mem_names]

theorem names_set (bindings : Bindings α) (name : String) (value : α) :
    (bindings.set name value).names = if name ∈ bindings.names then bindings.names else bindings.names ++ [name] := by
  induction bindings with
  | nil => rfl
  | cons pair rest ih =>
    obtain ⟨other, old⟩ := pair
    unfold set
    split
    · rename_i hname
      subst hname
      exact (if_pos List.mem_cons_self).symm
    · rename_i hname
      show other :: (set rest name value).names =
        if name ∈ other :: names rest then other :: names rest else (other :: names rest) ++ [name]
      rw [ih]
      by_cases hmem : name ∈ names rest
      · rw [if_pos hmem, if_pos (List.mem_cons_of_mem _ hmem)]
      · rw [if_neg hmem, if_neg (List.not_mem_cons_of_ne_of_not_mem (Ne.symm hname) hmem), List.cons_append]

theorem nodup_names_setAll {bindings : Bindings α} (h : bindings.names.Nodup) (pairs : List (String × α)) :
    (bindings.setAll pairs).names.Nodup := by
  induction pairs generalizing bindings with
  | nil => exact h
  | cons pair pairs ih =>
    refine ih ?_
    rw [names_set]
    split
    · exact h
    · rename_i hfresh
      exact List.nodup_append.mpr ⟨h, List.nodup_singleton _, fun name hname other hother heq =>
        hfresh (List.mem_singleton.mp hother ▸ heq ▸ hname)⟩

theorem nodup_names_ofList (pairs : List (String × α)) : (ofList pairs).names.Nodup :=
  nodup_names_setAll (show (names ([] : Bindings α)).Nodup from List.nodup_nil) pairs

/-! ### Values -/

/-- The bits of a total assignment bind the names of a list to their values, however often they are given. -/
theorem value?_setAll_map (bindings : Bindings α) (vars : List String) (values : String → α)
    (name : String) :
    (bindings.setAll (vars.zip (vars.map values))).value? name =
      if name ∈ vars then some (values name) else bindings.value? name := by
  induction vars generalizing bindings with
  | nil => rfl
  | cons other vars ih =>
    rw [List.map_cons, List.zip_cons_cons, setAll_cons, ih, value?_set]
    by_cases hmem : name ∈ vars
    · rw [if_pos hmem, if_pos (List.mem_cons_of_mem _ hmem)]
    · by_cases hname : name = other
      · simp [hname]
      · rw [if_neg hmem, if_neg hname, if_neg (by simp [hname, hmem])]

theorem value?_setAll_of_notMem {bindings : Bindings α} {pairs : List (String × α)} {name : String}
    (h : name ∉ pairs.map Prod.fst) : (bindings.setAll pairs).value? name = bindings.value? name := by
  induction pairs generalizing bindings with
  | nil => rfl
  | cons pair pairs ih =>
    obtain ⟨hname, hrest⟩ := not_or.mp (List.mem_cons.not.mp h)
    exact (ih hrest).trans ((value?_set bindings pair.1 name pair.2).trans (if_neg hname))

/-- A name is bound to what it is given at its last place. -/
theorem value?_setAll_of_last {bindings : Bindings α} {vars : List String} {row : List α} (hlength : row.length = vars.length)
    {j : Nat} {name : String} (hname : vars[j]? = some name) (hlast : name ∉ vars.drop (j + 1)) :
    (bindings.setAll (vars.zip row)).value? name = row[j]? := by
  induction vars generalizing bindings row j with
  | nil => cases hname
  | cons other vars ih =>
    cases row with
    | nil => cases hlength
    | cons value row =>
      rw [List.zip_cons_cons, setAll_cons]
      cases j with
      | zero =>
        obtain rfl := Option.some.inj hname
        rw [value?_setAll_of_notMem, value?_set, if_pos rfl]
        · rfl
        · rwa [List.map_fst_zip (Nat.le_of_eq (Nat.succ.inj hlength).symm)]
      | succ j => exact ih (Nat.succ.inj hlength) hname hlast

/-! ### Order -/

section Order
variable {bindings other : Bindings α}

theorem value?_eq_some_iff (h : bindings.names.Nodup) {name : String} {value : α} :
    bindings.value? name = some value ↔ (name, value) ∈ bindings := by
  induction bindings with
  | nil => exact iff_of_false (fun h => nomatch h) fun h => nomatch h
  | cons pair rest ih =>
    obtain ⟨first, v⟩ := pair
    obtain ⟨hfresh, hrest⟩ := List.nodup_cons.mp h
    rw [value?_cons, List.mem_cons, Prod.mk.injEq, ← ih hrest]
    by_cases hname : name = first
    · subst hname
      have hnone : value? rest name ≠ some value := fun hv => hfresh (List.mem_map.mpr ⟨_, (ih hrest).mp hv, rfl⟩)
      simp [hnone, eq_comm]
    · simp [hname]

/-- A name has the same value in whatever order the bindings come. -/
theorem value?_perm (hnodup : bindings.names.Nodup) (h : other.Perm bindings) : other.value? = bindings.value? := by
  funext name
  refine Option.ext fun value => ?_
  have hother : other.names.Nodup := (h.map Prod.fst).nodup_iff.mpr hnodup
  rw [value?_eq_some_iff hother, value?_eq_some_iff hnodup, h.mem_iff]

end Order

end Minterm.Bindings
