import Mathlib.Data.List.TakeWhile

/-! Paths as lists of elements between separators, and the directory that a path
leads to. -/

namespace KcnTools.Path

variable {α : Type} (isSep : α → Bool)

def components (path : List α) : List (List α) := path.splitOnP isSep

theorem components_append_cons (first second : List α) {sep : α} (separates : isSep sep = true) :
    components isSep (first ++ sep :: second) =
      components isSep first ++ components isSep second :=
  List.splitOnP_append_cons first second separates

theorem components_of_all {path : List α} (element : ∀ c ∈ path, isSep c = false) :
    components isSep path = [path] :=
  List.splitOnP_eq_singleton element

theorem components_ne_nil (path : List α) : components isSep path ≠ [] :=
  List.splitOnP_ne_nil isSep path

theorem components_eq_takeWhile (path : List α) :
    components isSep path = path.takeWhile (fun c => !isSep c) ::
      (components isSep path).tail := by
  induction path with
  | nil => rfl
  | cons c rest ih =>
      rw [components, List.splitOnP_cons_eq_if_modifyHead]
      cases separates : isSep c with
      | true => simp [separates]
      | false =>
          rw [components] at ih
          rw [ih]
          simp [separates]

theorem components_append_tail (first path : List α) :
    components isSep (first ++ path) =
      components isSep (first ++ path.takeWhile fun c => !isSep c) ++
        (components isSep path).tail := by
  cases found : path.dropWhile fun c => !isSep c with
  | nil =>
      have all : path.takeWhile (fun c => !isSep c) = path := by
        have whole := List.takeWhile_append_dropWhile (p := fun c => !isSep c) (l := path)
        rwa [found, List.append_nil] at whole
      have element : ∀ c ∈ path, isSep c = false := by
        intro c member
        rw [← all] at member
        simpa using List.mem_takeWhile_imp member
      rw [all, components_of_all isSep element, List.tail_cons, List.append_nil]
  | cons sep rest =>
      have whole := List.takeWhile_append_dropWhile (p := fun c => !isSep c) (l := path)
      have separates : isSep sep = true := by
        have first := List.head?_dropWhile_not (fun c => !isSep c) path
        rw [found] at first
        simpa using first
      have element : ∀ c ∈ path.takeWhile (fun c => !isSep c), isSep c = false := by
        intro c member
        simpa using List.mem_takeWhile_imp member
      rw [found] at whole
      generalize path.takeWhile (fun c => !isSep c) = head at *
      subst whole
      rw [← List.append_assoc, components_append_cons isSep _ _ separates,
        components_append_cons isSep _ _ separates, components_of_all isSep element]
      rfl

variable [DecidableEq α] (up here : List α)

/-- Follows the elements of a path, last directory first. The root is its own parent. -/
def resolve (directory : List (List α)) : List (List α) → List (List α)
  | [] => directory
  | element :: rest =>
      if element = up then resolve directory.tail rest
      else if element = [] ∨ element = here then resolve directory rest
      else resolve (element :: directory) rest

theorem resolve_append (directory first second : List (List α)) :
    resolve up here directory (first ++ second) =
      resolve up here (resolve up here directory first) second := by
  induction first generalizing directory with
  | nil => rfl
  | cons element rest ih =>
      simp only [List.cons_append, resolve]
      split
      · exact ih _
      · split
        · exact ih _
        · exact ih _

theorem resolve_below {elements : List (List α)} (noUp : up ∉ elements)
    (directory : List (List α)) : directory <:+ resolve up here directory elements := by
  induction elements generalizing directory with
  | nil => exact List.suffix_rfl
  | cons element rest ih =>
      rw [List.mem_cons, not_or] at noUp
      simp only [resolve, if_neg (Ne.symm noUp.1)]
      split
      · exact ih noUp.2 directory
      · exact (List.suffix_cons element directory).trans (ih noUp.2 _)

/-! Paths that start at the root. -/

def rooted (sep : α) (elements : List (List α)) : List α := elements.flatMap fun element => sep :: element

omit [DecidableEq α] in
theorem rooted_cons (sep : α) (element : List α) (rest : List (List α)) :
    rooted sep (element :: rest) = sep :: element ++ rooted sep rest := rfl

omit [DecidableEq α] in
theorem rooted_append (sep : α) (first second : List (List α)) :
    rooted sep (first ++ second) = rooted sep first ++ rooted sep second :=
  List.flatMap_append ..

omit [DecidableEq α] in
theorem components_rooted {sep : α} (separates : isSep sep = true) {elements : List (List α)}
    (plain : ∀ element ∈ elements, ∀ c ∈ element, isSep c = false) (first : List α)
    (start : ∀ c ∈ first, isSep c = false) :
    components isSep (first ++ rooted sep elements) = first :: elements := by
  induction elements generalizing first with
  | nil =>
      rw [rooted, List.flatMap_nil, List.append_nil]
      exact components_of_all isSep start
  | cons element rest ih =>
      have next := ih (fun other member => plain other (List.mem_cons_of_mem _ member)) element
        (plain element List.mem_cons_self)
      rw [rooted] at next ⊢
      rw [List.flatMap_cons, List.cons_append, components_append_cons isSep _ _ separates,
        components_of_all isSep start, next]
      rfl

omit [DecidableEq α] in
/-- A path that starts with a separator is its elements with a separator before each. -/
theorem rooted_components {sep : α} (only : ∀ c, isSep c = true ↔ c = sep) (path : List α) :
    rooted sep (components isSep path) = sep :: path := by
  induction path with
  | nil => simp [components, rooted]
  | cons c rest ih =>
      rw [components, List.splitOnP_cons_eq_if_modifyHead]
      rw [components] at ih
      cases separates : isSep c with
      | true =>
          obtain rfl := (only c).mp separates
          rw [if_pos rfl, rooted_cons, ih]
          rfl
      | false =>
          have whole := components_eq_takeWhile isSep rest
          rw [components] at whole
          rw [whole] at ih ⊢
          simp only [rooted_cons, List.cons_append, List.cons.injEq, true_and] at ih
          simp [rooted_cons, ih]

omit [DecidableEq α] in
theorem components_plain (path : List α) :
    ∀ element ∈ components isSep path, ∀ c ∈ element, isSep c = false := by
  induction path with
  | nil => simp [components]
  | cons d rest ih =>
      rw [components, List.splitOnP_cons_eq_if_modifyHead]
      rw [components] at ih
      cases separates : isSep d with
      | true => simpa using ih
      | false =>
          have whole := components_eq_takeWhile isSep rest
          rw [components] at whole
          rw [whole] at ih ⊢
          simp only [Bool.false_eq_true, ↓reduceIte, List.modifyHead_cons, List.mem_cons,
            forall_eq_or_imp] at ih ⊢
          exact ⟨⟨separates, ih.1⟩, ih.2⟩

section Places

variable {isSep} {sep : α} {elements : List (List α)} {element : List α}

omit [DecidableEq α] in
/-- What stands behind the last separator of a rooted path is its last element. -/
theorem getLastD_of_suffix (separates : isSep sep = true)
    (plain : ∀ element ∈ elements, ∀ c ∈ element, isSep c = false) (apart : ∀ c ∈ element, isSep c = false)
    (found : sep :: element <:+ rooted sep elements) : elements.getLastD [] = element := by
  obtain ⟨first, whole⟩ := found
  have parts := components_rooted isSep separates plain [] (by simp)
  rw [List.nil_append, ← whole, components_append_cons isSep _ _ separates,
    components_of_all isSep apart, components_eq_takeWhile isSep first] at parts
  simp only [List.cons_append, List.cons.injEq] at parts
  rw [← parts.2, List.getLastD_concat]

end Places

omit [DecidableEq α] in
theorem mem_of_mem_components {path element : List α} (member : element ∈ components isSep path) {c : α}
    (found : c ∈ element) : c ∈ path := by
  induction path generalizing element with
  | nil =>
      obtain rfl : element = [] := by simpa [components] using member
      exact absurd found List.not_mem_nil
  | cons d rest ih =>
      rw [components, List.splitOnP_cons_eq_if_modifyHead] at member
      have whole := components_eq_takeWhile isSep rest
      rw [components] at whole ih
      split at member
      · rcases List.mem_cons.mp member with rfl | member
        · exact absurd found List.not_mem_nil
        · exact List.mem_cons_of_mem _ (ih member found)
      · rw [whole, List.modifyHead_cons, List.mem_cons] at member
        rcases member with rfl | member
        · rcases List.mem_cons.mp found with rfl | found
          · exact List.mem_cons_self
          · exact List.mem_cons_of_mem _ ((List.takeWhile_prefix _).subset found)
        · exact List.mem_cons_of_mem _ (ih (by rw [whole]; exact List.mem_cons_of_mem _ member) found)

def Regular (element : List α) : Prop := element ≠ up ∧ element ≠ [] ∧ element ≠ here

theorem resolve_regular {directory : List (List α)} (kept : ∀ element ∈ directory, Regular up here element)
    (elements : List (List α)) :
    ∀ element ∈ resolve up here directory elements, Regular up here element := by
  induction elements generalizing directory with
  | nil => exact kept
  | cons element rest ih =>
      rw [resolve]
      split
      · exact ih fun other member => kept other (List.mem_of_mem_tail member)
      next notUp =>
        split
        · exact ih kept
        next named =>
          rw [not_or] at named
          refine ih fun other member => ?_
          rcases List.mem_cons.mp member with rfl | member
          · exact ⟨notUp, named⟩
          · exact kept other member

theorem resolve_of_regular {elements : List (List α)}
    (kept : ∀ element ∈ elements, Regular up here element) (directory : List (List α)) :
    resolve up here directory elements = elements.reverse ++ directory := by
  induction elements generalizing directory with
  | nil => rfl
  | cons element rest ih =>
      obtain ⟨notUp, named⟩ := kept element List.mem_cons_self
      rw [resolve, if_neg notUp, if_neg (not_or.mpr named),
        ih fun other member => kept other (List.mem_cons_of_mem _ member)]
      simp

theorem mem_resolve {directory elements : List (List α)} {element : List α}
    (member : element ∈ resolve up here directory elements) :
    element ∈ directory ∨ element ∈ elements := by
  induction elements generalizing directory with
  | nil => exact Or.inl member
  | cons first rest ih =>
      rw [resolve] at member
      split at member
      · exact (ih member).imp List.mem_of_mem_tail (List.mem_cons_of_mem _)
      · split at member
        · exact (ih member).imp id (List.mem_cons_of_mem _)
        · rcases ih member with old | new
          · rcases List.mem_cons.mp old with rfl | old
            · exact Or.inr List.mem_cons_self
            · exact Or.inl old
          · exact Or.inr (List.mem_cons_of_mem _ new)

end KcnTools.Path
