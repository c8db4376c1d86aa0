import Mathlib.Data.List.Basic

/-! Separated text: the maximal runs of other symbols in a list, and the list
that writes a separator in front of each of given runs. Empty runs do not count,
so repeated, leading and final separators disappear. -/
namespace OpenPs3Ftp.Lib
variable {α : Type}

def separated (sep : α) (words : List (List α)) : List α := words.flatMap (fun word => sep :: word)

@[simp] theorem separatedNil (sep : α) : separated sep [] = [] := rfl

@[simp] theorem separatedCons (sep) (word : List α) (words : List (List α)) :
    separated sep (word :: words) = sep :: (word ++ separated sep words) := rfl

theorem separatedAppend (sep) (left right : List (List α)) :
    separated sep (left ++ right) = separated sep left ++ separated sep right := by
  simp [separated]

theorem separatedEmpty {sep : α} {words : List (List α)} : separated sep words = [] ↔ words = [] := by
  cases words <;> simp

variable [DecidableEq α]

def fields (sep : α) : List α → List (List α)
  | [] => []
  | b :: rest =>
    if b = sep then fields sep rest else
      match rest with
      | [] => [[b]]
      | c :: _ => if c = sep then [b] :: fields sep rest else
          match fields sep rest with
          | [] => [[b]]
          | word :: words => (b :: word) :: words

def Word (sep : α) (word : List α) : Prop := word ≠ [] ∧ sep ∉ word
instance (sep : α) (word : List α) : Decidable (Word sep word) := by unfold Word; infer_instance

@[simp] theorem fieldsNil (sep : α) : fields sep [] = [] := rfl

@[simp] theorem fieldsSep (sep) (rest : List α) : fields sep (sep :: rest) = fields sep rest := by
  simp [fields]

theorem fieldsOpen {sep b} (rest : List α) (other : b ≠ sep) : fields sep (b :: rest) ≠ [] := by
  cases rest with
  | nil => simp [fields,other]
  | cons c rest =>
    simp only [fields,if_neg other]
    split
    · simp
    · split <;> simp

theorem fieldsAppendSep (sep : α) (left right : List α) :
    fields sep (left ++ sep :: right) = fields sep left ++ fields sep right := by
  induction left with
  | nil => simp
  | cons b left ih =>
    by_cases other : b = sep
    · subst b
      simpa using ih
    cases left with
    | nil => simp [fields,other]
    | cons c left =>
      by_cases next : c = sep
      · subst c
        simp only [List.cons_append,fields,if_neg other,if_true] at ih ⊢
        rw [ih]
      have full := fieldsOpen left next
      have grown := ih
      simp only [List.cons_append] at grown
      simp only [List.cons_append,fields.eq_def sep (b :: c :: (left ++ sep :: right)),
        fields.eq_def sep (b :: c :: left),if_neg other,if_neg next,grown]
      cases h : fields sep (c :: left) with
      | nil => exact absurd h full
      | cons word words => simp

theorem fieldsWord {sep} {word : List α} (valid : Word sep word) : fields sep word = [word] := by
  obtain ⟨nonempty,free⟩ := valid
  induction word with
  | nil => exact absurd rfl nonempty
  | cons b word ih =>
    simp only [List.mem_cons,not_or] at free
    have other : b ≠ sep := fun h => free.1 h.symm
    cases word with
    | nil => simp [fields,other]
    | cons c word =>
      have next : c ≠ sep := fun h => free.2 (by simp [h])
      simp only [fields.eq_def sep (b :: c :: word),if_neg other,if_neg next,ih (by simp) free.2]

theorem fieldWithin {sep : α} {text word : List α} (member : word ∈ fields sep text) :
    Word sep word ∧ word ⊆ text := by
  induction text generalizing word with
  | nil => simp at member
  | cons b text ih =>
    have later : ∀ {word}, word ∈ fields sep text → Word sep word ∧ word ⊆ b :: text := fun member =>
      ⟨(ih member).1,List.subset_cons_of_subset b (ih member).2⟩
    by_cases other : b = sep
    · subst b
      exact later (by simpa using member)
    have single : Word sep [b] ∧ [b] ⊆ b :: text := by
      refine ⟨⟨by simp,by simpa using fun h : sep = b => other h.symm⟩,by simp⟩
    cases text with
    | nil =>
      have same : word = [b] := by simpa [fields,other] using member
      exact same ▸ single
    | cons c text =>
      by_cases next : c = sep
      · simp only [fields.eq_def sep (b :: c :: text),if_neg other,if_pos next,List.mem_cons] at member
        rcases member with rfl | member
        · exact single
        · exact later member
      simp only [fields.eq_def sep (b :: c :: text),if_neg other,if_neg next] at member
      cases h : fields sep (c :: text) with
      | nil => exact absurd h (fieldsOpen _ next)
      | cons head words =>
        simp only [h,List.mem_cons] at member
        rcases member with rfl | member
        · obtain ⟨valid,inside⟩ := ih (show head ∈ fields sep (c :: text) by simp [h])
          exact ⟨⟨by simp,by simpa using ⟨fun h => other h.symm,valid.2⟩⟩,List.cons_subset_cons b inside⟩
        · exact later (by simp [h,member])

theorem fieldValid {sep : α} {text word : List α} (member : word ∈ fields sep text) : Word sep word :=
  (fieldWithin member).1

theorem fieldsSeparated {sep : α} (left : List α) {words : List (List α)}
    (valid : ∀ word ∈ words, Word sep word) :
    fields sep (left ++ separated sep words) = fields sep left ++ words := by
  induction words generalizing left with
  | nil => simp
  | cons word words ih =>
    have rest := ih (left ++ sep :: word) (fun w member => valid w (by simp [member]))
    simp only [List.append_assoc,List.cons_append] at rest
    rw [separatedCons,rest,fieldsAppendSep,fieldsWord (valid word (by simp))]
    simp

theorem fieldsCount (sep : α) : (text : List α) → 2 * (fields sep text).length ≤ text.length + 1
  | [] => by simp
  | [b] => by by_cases other : b = sep <;> simp [fields,other]
  | b :: c :: rest => by
    have whole := fieldsCount sep (c :: rest)
    have after := fieldsCount sep rest
    by_cases other : b = sep
    · subst b
      simp only [fieldsSep,List.length_cons] at whole ⊢
      omega
    by_cases next : c = sep
    · subst c
      simp only [fields.eq_def sep (b :: sep :: rest),if_neg other,if_true,fieldsSep,List.length_cons]
      omega
    simp only [fields.eq_def sep (b :: c :: rest),if_neg other,if_neg next]
    cases h : fields sep (c :: rest) with
    | nil => exact absurd h (fieldsOpen _ next)
    | cons word words =>
      simp only [h,List.length_cons] at whole ⊢
      omega

end OpenPs3Ftp.Lib
