import Mathlib.Algebra.GroupWithZero.Nat
import Mathlib.Data.List.Induction

/-! A list of entries in order of recency, the most recent one first, under a budget for the sum of
their sizes. -/

namespace Recency

variable {κ β : Type}

def total (size : β → Nat) (items : List (κ × β)) : Nat := (items.map fun e => size e.2).sum

variable {size : β → Nat} {budget extra : Nat} {items : List (κ × β)} {rest : List (κ × β)}

@[simp] theorem total_cons (e : κ × β) : total size (e :: items) = size e.2 + total size items :=
  rfl

theorem total_le_of_sublist (h : rest.Sublist items) :
    total size rest ≤ total size items := by
  induction h with
  | slnil => exact Nat.le_refl 0
  | cons e _ ih =>
    rw [total_cons]
    omega
  | cons_cons e _ ih =>
    rw [total_cons, total_cons]
    omega

theorem total_perm (h : items.Perm rest) :
    total size items = total size rest := by
  induction h with
  | nil => rfl
  | cons e _ ih => rw [total_cons, total_cons, ih]
  | swap a b items =>
    simp only [total_cons]
    omega
  | trans _ _ ih ih' => exact ih.trans ih'

/-- Entries go from the back until the rest fits together with `extra`, or none is left. -/
def trim (size : β → Nat) (budget extra : Nat) (items : List (κ × β)) : List (κ × β) :=
  if _ : items = [] ∨ total size items + extra ≤ budget then items
  else trim size budget extra items.dropLast
termination_by items.length
decreasing_by
  rename_i h
  have hpos := List.length_pos_iff.mpr (not_or.mp h).1
  rw [List.length_dropLast]
  omega

@[simp] theorem trim_nil : trim size budget extra ([] : List (κ × β)) = [] := by
  rw [trim, dif_pos (.inl rfl)]

theorem trim_snoc (e : κ × β) : trim size budget extra (items ++ [e]) =
    if total size (items ++ [e]) + extra ≤ budget then items ++ [e]
    else trim size budget extra items := by
  rw [trim]
  by_cases h : total size (items ++ [e]) + extra ≤ budget
  · rw [dif_pos (.inr h), if_pos h]
  · rw [dif_neg (by simp [h]), if_neg h, List.dropLast_concat]

theorem trim_front : trim size budget extra items <+: items := by
  induction items using List.reverseRecOn with
  | nil => simp
  | append_singleton items e ih =>
    rw [trim_snoc]
    split
    · exact List.prefix_refl _
    · exact ih.trans (List.prefix_append items [e])

theorem trim_fits (h : trim size budget extra items ≠ []) :
    total size (trim size budget extra items) + extra ≤ budget := by
  induction items using List.reverseRecOn with
  | nil => exact absurd trim_nil h
  | append_singleton items e ih =>
    rw [trim_snoc] at h ⊢
    split
    · assumption
    · rename_i hlarge
      rw [if_neg hlarge] at h
      exact ih h

variable [DecidableEq κ]

def erase (key : κ) (items : List (κ × β)) : List (κ × β) := items.eraseP fun e => key = e.1

def touch (key : κ) (items : List (κ × β)) : List (κ × β) :=
  match items.find? fun e => key = e.1 with
  | none => items
  | some e => e :: erase key items

/-- A new entry comes in front of what it leaves room for, unless it is larger than the budget. -/
def put (size : β → Nat) (budget : Nat) (key : κ) (value : β) (items : List (κ × β)) :
    List (κ × β) :=
  let rest := trim size budget (size value) (erase key items)
  if size value ≤ budget then (key, value) :: rest else rest

theorem erase_sublist (key : κ) : (erase key items).Sublist items := List.eraseP_sublist

theorem touch_perm (key : κ) (items : List (κ × β)) : (touch key items).Perm items := by
  unfold touch
  split
  · exact List.Perm.refl _
  · rename_i e he
    obtain ⟨hkey, before, after, rfl, hbefore⟩ := List.find?_eq_some_iff_append.mp he
    have herase : erase key (before ++ e :: after) = before ++ after := by
      rw [erase, List.eraseP_append_right _ (by simpa using hbefore)]
      simp only [List.eraseP_cons, hkey, cond_true]
    rw [herase]
    exact List.perm_middle.symm

theorem total_put_le {key : κ} {value : β} :
    total size (put size budget key value items) ≤ budget := by
  unfold put
  dsimp only
  by_cases hnil : trim size budget (size value) (erase key items) = []
  · rw [hnil]
    split
    · simpa
    · exact Nat.zero_le _
  · have hfits := trim_fits hnil
    split
    · show size value + total size (trim size budget (size value) (erase key items)) ≤ budget
      omega
    · omega

end Recency
