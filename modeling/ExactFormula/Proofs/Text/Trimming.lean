import ExactFormula.Text.Blank
import Mathlib.Data.List.TakeWhile

/-!
Text that starts and ends with characters that are not blank. Trimming takes away what is blank around it
and nothing else.
-/

namespace ExactFormula.Text

structure Solid (cs : List Char) : Prop where
  trimmed : trim cs = cs
  shown : cs ≠ []

variable {cs w w' : List Char}

theorem length_trimStart_le (cs : List Char) : (trimStart cs).length ≤ cs.length :=
  (List.dropWhile_sublist _).length_le

theorem length_trimEnd_le (cs : List Char) : (trimEnd cs).length ≤ cs.length := by
  have shorter := length_trimStart_le cs.reverse
  rwa [List.length_reverse, ← List.length_reverse] at shorter

/-- What is not blank is kept. -/
theorem mem_trim {c : Char} (mem : c ∈ cs) (shown : isBlank c = false) : c ∈ trim cs := by
  have kept {xs : List Char} (mem : c ∈ xs) : c ∈ xs.dropWhile isBlank := by
    rw [← @List.takeWhile_append_dropWhile _ isBlank xs] at mem
    refine (List.mem_append.1 mem).resolve_left fun blank => ?_
    rw [List.mem_takeWhile_imp blank] at shown
    cases shown
  exact List.mem_reverse.2 (kept (List.mem_reverse.2 (kept mem)))

theorem trim_isEmpty_of_mem {c : Char} (mem : c ∈ cs) (shown : isBlank c = false) : (trim cs).isEmpty = false :=
  List.isEmpty_eq_false_iff.2 (List.ne_nil_of_mem (mem_trim mem shown))

/-- What is trimmed is blank. -/
theorem exists_trim (cs : List Char) : ∃ w w', cs = w ++ (trim cs ++ w') ∧ (∀ c ∈ w, isBlank c = true) ∧
    ∀ c ∈ w', isBlank c = true := by
  have atEnd (cs : List Char) : cs = trimEnd cs ++ (cs.reverse.takeWhile isBlank).reverse := by
    rw [trimEnd, ← List.reverse_append, List.takeWhile_append_dropWhile, List.reverse_reverse]
  refine ⟨cs.takeWhile isBlank, ((trimStart cs).reverse.takeWhile isBlank).reverse, ?_,
    fun _ => List.mem_takeWhile_imp, fun c mem => List.mem_takeWhile_imp (List.mem_reverse.1 mem)⟩
  rw [trim, ← atEnd, trimStart, List.takeWhile_append_dropWhile]

theorem trim_blank (blank : ∀ c ∈ w, isBlank c = true) : trim w = [] := by
  rw [trim, trimStart, List.dropWhile_eq_nil_iff.2 blank]
  rfl

namespace Solid

theorem trimStart_eq (h : Solid cs) : trimStart cs = cs := by
  refine (List.dropWhile_suffix _).eq_of_length_le ?_
  have shorter := length_trimEnd_le (trimStart cs)
  rw [← trim, h.trimmed] at shorter
  exact shorter

theorem trimEnd_eq (h : Solid cs) : trimEnd cs = cs := by
  have trimmed := h.trimmed
  rwa [trim, h.trimStart_eq] at trimmed

theorem head (h : Solid cs) : ∃ c rest, cs = c :: rest ∧ isBlank c = false := by
  obtain ⟨c, rest, rfl⟩ := List.exists_cons_of_ne_nil h.shown
  refine ⟨c, rest, rfl, ?_⟩
  cases blank : isBlank c with
  | false => rfl
  | true =>
    have shorter := length_trimStart_le rest
    have same := congrArg List.length h.trimStart_eq
    rw [trimStart, List.dropWhile_cons_of_pos blank, List.length_cons, ← trimStart] at same
    omega

/-- What ends the text is not all blank. -/
theorem exists_shown {xs ys : List Char} (h : Solid (xs ++ ys)) (more : ys ≠ []) :
    ∃ c ∈ ys, isBlank c = false := by
  by_cases blank : ∀ c ∈ ys, isBlank c = true
  · have shorter := length_trimEnd_le xs
    rw [← trimEnd_append_blanks xs blank, h.trimEnd_eq, List.length_append] at shorter
    exact absurd (List.length_eq_zero_iff.1 (by omega)) more
  · simpa using blank

end Solid

/-- Blanks around a text whose ends are not blank are all that is trimmed. -/
theorem trim_append (blank : ∀ c ∈ w, isBlank c = true) (h : Solid cs) (blank' : ∀ c ∈ w', isBlank c = true) :
    trim (w ++ (cs ++ w')) = cs := by
  obtain ⟨c, rest, rfl, shown⟩ := h.head
  have start : trimStart (w ++ (c :: rest ++ w')) = c :: rest ++ w' := by
    rw [trimStart, List.dropWhile_append_of_pos blank]
    exact List.dropWhile_cons_of_neg (by simp [shown])
  rw [trim, start, trimEnd_append_blanks _ blank', h.trimEnd_eq]

theorem solid_of_ends {c d : Char} (hc : isBlank c = false) (hd : isBlank d = false) (cs : List Char) :
    Solid (c :: (cs ++ [d])) where
  trimmed := by
    have start : trimStart (c :: (cs ++ [d])) = c :: (cs ++ [d]) :=
      List.dropWhile_cons_of_neg (by simp [hc])
    rw [trim, start, trimEnd, ← List.cons_append, List.reverse_append, List.reverse_singleton,
      List.singleton_append, List.dropWhile_cons_of_neg (by simp [hd])]
    simp
  shown := List.cons_ne_nil _ _

theorem solid_of_shown (shown : ∀ c ∈ cs, isBlank c = false) (nonempty : cs ≠ []) : Solid cs where
  trimmed := by
    have unblank (xs : List Char) (h : ∀ c ∈ xs, isBlank c = false) : xs.dropWhile isBlank = xs := by
      cases xs with
      | nil => rfl
      | cons c xs => exact List.dropWhile_cons_of_neg (by simp [h c List.mem_cons_self])
    rw [trim, trimStart, unblank cs shown, trimEnd, unblank cs.reverse (by simpa using shown), List.reverse_reverse]
  shown := nonempty

theorem solid_of_shown_ends (first : ∃ c ∈ cs.head?, isBlank c = false) (last : ∃ c ∈ cs.getLast?, isBlank c = false) :
    Solid cs := by
  obtain ⟨c, first, hc⟩ := first
  obtain ⟨body, rfl⟩ := List.head?_eq_some_iff.1 first
  obtain ⟨d, last, hd⟩ := last
  rcases List.eq_nil_or_concat body with rfl | ⟨body, e, rfl⟩
  · exact solid_of_shown (by simpa using hc) (List.cons_ne_nil c [])
  · rw [List.concat_eq_append, ← List.cons_append, List.getLast?_concat] at last
    cases last
    rw [List.concat_eq_append]
    exact solid_of_ends hc hd body

end ExactFormula.Text
