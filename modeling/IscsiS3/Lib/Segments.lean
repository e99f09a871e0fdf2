import Mathlib.Data.List.Infix

/-! Words between two separators.  A search for such a word in a text looks at one segment after the
other: it never finds a word across a separator. -/

namespace Segments

variable {α : Type} {c : α} {w : List α} {f t : List α}

def delimited (c : α) (w : List α) : List α := c :: (w ++ [c])

theorem prefix_append_cons (hw : c ∉ w) (h : w ++ [c] <+: f ++ c :: t) :
    w ++ [c] <+: f ++ [c] := by
  induction f generalizing w with
  | nil =>
    cases w with
    | nil => exact List.prefix_refl [c]
    | cons x w =>
      obtain ⟨rfl, -⟩ := List.cons_prefix_cons.mp h
      exact absurd List.mem_cons_self hw
  | cons y f ih =>
    cases w with
    | nil =>
      obtain ⟨rfl, -⟩ := List.cons_prefix_cons.mp h
      exact List.cons_prefix_cons.mpr ⟨rfl, List.nil_prefix⟩
    | cons x w =>
      obtain ⟨rfl, hrest⟩ := List.cons_prefix_cons.mp h
      exact List.cons_prefix_cons.mpr ⟨rfl, ih (fun hc => hw (List.mem_cons_of_mem x hc)) hrest⟩

theorem eq_of_front {u : List α} (hw : c ∉ w) (hu : c ∉ u) (h : w ++ [c] <+: u ++ [c]) : w = u := by
  induction w generalizing u with
  | nil =>
    cases u with
    | nil => rfl
    | cons y u =>
      obtain ⟨rfl, -⟩ := List.cons_prefix_cons.mp h
      exact absurd List.mem_cons_self hu
  | cons x w ih =>
    cases u with
    | nil =>
      obtain ⟨rfl, -⟩ := List.cons_prefix_cons.mp h
      exact absurd List.mem_cons_self hw
    | cons y u =>
      obtain ⟨rfl, hrest⟩ := List.cons_prefix_cons.mp h
      rw [ih (fun hc => hw (List.mem_cons_of_mem x hc))
        (fun hc => hu (List.mem_cons_of_mem x hc)) hrest]

theorem not_infix_of_notMem {t : List α} (ht : c ∉ t) : ¬delimited c w <:+: c :: t := by
  intro h
  have hrest := h.sublist
  rw [delimited, List.cons_sublist_cons] at hrest
  exact ht (hrest.subset (by simp))

theorem infix_append_cons (hw : c ∉ w) :
    delimited c w <:+: f ++ c :: t ↔ delimited c w <:+: f ++ [c] ∨ delimited c w <:+: c :: t := by
  constructor
  · intro h
    induction f with
    | nil => exact .inr h
    | cons x f ih =>
      rcases List.infix_cons_iff.mp h with hfront | hrest
      · left
        obtain ⟨rfl, hword⟩ := List.cons_prefix_cons.mp hfront
        exact (List.cons_prefix_cons.mpr ⟨rfl, prefix_append_cons hw hword⟩).isInfix
      · rcases ih hrest with hf | ht
        · exact .inl (hf.trans (List.suffix_cons x _).isInfix)
        · exact .inr ht
  · rintro (hf | ht)
    · refine hf.trans (List.IsPrefix.isInfix ⟨t, ?_⟩)
      simp
    · exact ht.trans (List.suffix_append f _).isInfix

/-- The first segment of a text is the word, or the word is behind it. -/
theorem infix_segment {u t : List α} (hw : c ∉ w) (hu : c ∉ u) :
    delimited c w <:+: c :: (u ++ c :: t) ↔ u = w ∨ delimited c w <:+: c :: t := by
  have hfirst : delimited c w <:+: c :: u ++ [c] ↔ u = w := by
    constructor
    · intro h
      rcases List.infix_cons_iff.mp h with hfront | hrest
      · obtain ⟨-, hword⟩ := List.cons_prefix_cons.mp hfront
        exact (eq_of_front hw hu hword).symm
      · have hsub : (c :: w ++ [c]).Sublist (u ++ [c]) := hrest.sublist
        rw [List.append_sublist_append_right] at hsub
        exact absurd (hsub.subset List.mem_cons_self) hu
    · rintro rfl
      exact List.infix_rfl
  rw [← List.cons_append, infix_append_cons hw, hfirst]

end Segments
