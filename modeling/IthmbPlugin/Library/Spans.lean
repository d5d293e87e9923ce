import Mathlib.Data.List.DropRight

/-!
# Spans

A predicate on letters cuts a list into spans. Trimming removes the longest
span at either end, and the longest span at the start is the only one that
no further letter continues.
-/

set_option autoImplicit false

namespace IthmbPlugin.Spans

variable {α : Type*} {p : α → Bool}

def Firm (p : α → Bool) (t : List α) : Prop :=
  (∀ a ∈ t.head?, p a = false) ∧ ∀ a ∈ t.getLast?, p a = false

theorem takeWhile_span {t rest : List α} (ht : ∀ a ∈ t, p a)
    (hrest : ∀ a ∈ rest.head?, p a = false) : (t++rest).takeWhile p = t := by
  rw [List.takeWhile_append_of_pos ht]
  cases rest with
  | nil => simp
  | cons a rest => rw [List.takeWhile_cons_of_neg (by simp [hrest a rfl]), List.append_nil]

theorem takeWhile_eq_iff {s t : List α} :
    s.takeWhile p = t ↔
      ∃ rest, s = t++rest ∧ (∀ a ∈ t, p a) ∧ ∀ a ∈ rest.head?, p a = false := by
  constructor
  · intro h
    refine ⟨s.dropWhile p, ?_, ?_, ?_⟩
    · rw [← h, List.takeWhile_append_dropWhile]
    · intro a ha
      exact List.mem_takeWhile_imp (h ▸ ha)
    · intro a ha
      have hnot := List.head?_dropWhile_not p s
      rw [Option.mem_def.mp ha] at hnot
      simpa using hnot
  · rintro ⟨rest, rfl, ht, hrest⟩
    exact takeWhile_span ht hrest

theorem dropWhile_firm {lead t : List α} (hlead : ∀ a ∈ lead, p a)
    (ht : ∀ a ∈ t.head?, p a = false) : (lead++t).dropWhile p = t := by
  rw [List.dropWhile_append_of_pos hlead]
  cases t with
  | nil => rfl
  | cons a t => exact List.dropWhile_cons_of_neg (by simp [ht a rfl])

theorem rdropWhile_firm {t trail : List α} (htrail : ∀ a ∈ trail, p a)
    (ht : ∀ a ∈ t.getLast?, p a = false) : (t++trail).rdropWhile p = t := by
  have hrev : (t++trail).reverse.dropWhile p = t.reverse := by
    rw [List.reverse_append]
    apply dropWhile_firm
    · intro a ha
      exact htrail a (List.mem_reverse.mp ha)
    · rw [List.head?_reverse]
      exact ht
  rw [List.rdropWhile, hrev, List.reverse_reverse]

theorem trim_span {lead t trail : List α} (hlead : ∀ a ∈ lead, p a) (htrail : ∀ a ∈ trail, p a)
    (ht : Firm p t) : ((lead++(t++trail)).dropWhile p).rdropWhile p = t := by
  cases t with
  | nil =>
    have hall : ∀ a ∈ lead++trail, p a := by
      intro a ha
      exact (List.mem_append.mp ha).elim (hlead a) (htrail a)
    rw [List.nil_append, List.dropWhile_eq_nil_iff.mpr hall, List.rdropWhile_nil]
  | cons a t =>
    have hhead : ∀ b ∈ (a::t++trail).head?, p b = false := ht.1
    rw [dropWhile_firm hlead hhead, rdropWhile_firm htrail ht.2]

theorem trim_firm (p : α → Bool) (s : List α) : Firm p ((s.dropWhile p).rdropWhile p) := by
  constructor
  · intro a ha
    obtain ⟨trail, htrail⟩ := List.rdropWhile_prefix p (l := s.dropWhile p)
    have hnot := List.head?_dropWhile_not p s
    rw [← htrail, List.head?_append, Option.mem_def.mp ha] at hnot
    simpa using hnot
  · intro a ha
    obtain ⟨hne, rfl⟩ := List.mem_getLast?_eq_getLast ha
    simpa using List.rdropWhile_last_not p _ hne

theorem trim_eq_iff {s t : List α} :
    (s.dropWhile p).rdropWhile p = t ↔
      Firm p t ∧ ∃ lead trail, s = lead++(t++trail) ∧ (∀ a ∈ lead, p a) ∧ ∀ a ∈ trail, p a := by
  constructor
  · rintro rfl
    refine ⟨trim_firm p s, s.takeWhile p, (s.dropWhile p).rtakeWhile p, ?_, ?_, ?_⟩
    · rw [List.rdropWhile_append_rtakeWhile, List.takeWhile_append_dropWhile]
    · intro a ha
      exact List.mem_takeWhile_imp ha
    · intro a ha
      exact List.mem_rtakeWhile_imp ha
  · rintro ⟨ht, lead, trail, rfl, hlead, htrail⟩
    exact trim_span hlead htrail ht

end IthmbPlugin.Spans
