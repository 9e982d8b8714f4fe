import Mathlib.Data.List.TakeWhile
import Mathlib.Data.List.Infix

/-! Squeezed blanks: between two characters that are not blank, the blanks become one line end if
there is one among them, and are otherwise left as they are. This is what happens to a text whose
lines are trimmed, whose empty lines are dropped and whose other lines are joined again. -/
namespace Reflow
variable {α : Type*} [DecidableEq α]

section
variable (blank : α → Bool) (e : α)

def squeeze (w : List α) : List α := if e ∈ w then [e] else w

/-- `w` are the blanks read since the last other character. -/
def tidyFrom : List α → List α → List α
  | _, [] => []
  | w, a :: u => if blank a then tidyFrom (w ++ [a]) u else squeeze e w ++ a :: tidyFrom [] u

def tidy (u : List α) : List α := tidyFrom blank e [] u

def reflow (u : List α) : List α := tidy blank e (u.dropWhile blank)

end

variable {blank : α → Bool} {e : α}

theorem squeeze_ne_nil {w : List α} (h : w ≠ []) : squeeze e w ≠ [] := by
  unfold squeeze
  split
  · exact List.cons_ne_nil _ _
  · exact h

theorem squeeze_blank (hnl : blank e) {w : List α} (h : ∀ a ∈ w, blank a) :
    ∀ a ∈ squeeze e w, blank a := by
  unfold squeeze
  split
  · simpa using hnl
  · exact h

theorem squeeze_of_not_mem {w : List α} (h : e ∉ w) : squeeze e w = w := if_neg h

/-- A run of blanks is as long as before only when it is left as it is. -/
theorem length_squeeze (w : List α) :
    (squeeze e w).length < w.length ∨ squeeze e w = w := by
  unfold squeeze
  split
  · next h =>
    match w with
    | [a] => exact .inr (by rw [List.mem_singleton.mp h])
    | a :: b :: w => exact .inl (by simp)
  · exact .inr rfl

theorem tidyFrom_cons {a : α} (h : blank a = false) (w u : List α) :
    tidyFrom blank e w (a :: u) = squeeze e w ++ a :: tidy blank e u := by
  rw [tidyFrom, if_neg (by simp [h])]
  rfl

theorem tidy_cons {a : α} (h : blank a = false) (u : List α) :
    tidy blank e (a :: u) = a :: tidy blank e u := by
  rw [tidy, tidyFrom_cons h]
  rfl

theorem tidyFrom_run {s : List α} (hs : ∀ a ∈ s, blank a) (w u : List α) :
    tidyFrom blank e w (s ++ u) = tidyFrom blank e (w ++ s) u := by
  induction s generalizing w with
  | nil => simp
  | cons a s ih =>
    obtain ⟨ha, hs⟩ := List.forall_mem_cons.mp hs
    rw [List.cons_append, tidyFrom, if_pos ha, ih hs, List.append_assoc, List.singleton_append]

theorem tidyFrom_blank {s : List α} (hs : ∀ a ∈ s, blank a) (w : List α) :
    tidyFrom blank e w s = [] := by
  rw [← List.append_nil s, tidyFrom_run hs, tidyFrom]

/-- A run of blanks in front of another character. -/
theorem tidy_run {s : List α} {a : α} (hs : ∀ a ∈ s, blank a) (ha : blank a = false)
    (u : List α) :
    tidy blank e (s ++ a :: u) = squeeze e s ++ a :: tidy blank e u := by
  rw [tidy, tidyFrom_run hs, List.nil_append, tidyFrom_cons ha]

theorem tidyFrom_append {s : List α} {a : α} (hlast : s.getLast? = some a)
    (ha : blank a = false) (w u : List α) :
    tidyFrom blank e w (s ++ u) = tidyFrom blank e w s ++ tidy blank e u := by
  induction s generalizing w with
  | nil => cases hlast
  | cons b s ih =>
    cases s with
    | nil =>
      obtain rfl : b = a := by simpa using hlast
      rw [List.singleton_append, tidyFrom_cons ha, tidyFrom_cons ha]
      simp [tidy, tidyFrom]
    | cons d s =>
      have hlast' : (d :: s).getLast? = some a := by simpa using hlast
      rw [List.cons_append, tidyFrom, tidyFrom]
      split
      · exact ih hlast' _
      · rw [List.append_assoc, List.cons_append]
        exact congrArg (squeeze e w ++ b :: ·) (ih hlast' [])

/-- Without line ends nothing changes up to the last character that is not blank. -/
theorem tidyFrom_line {s : List α} {a : α} (hlast : s.getLast? = some a) (ha : blank a = false)
    {w : List α} (hw : e ∉ w) (hs : e ∉ s) : tidyFrom blank e w s = w ++ s := by
  induction s generalizing w with
  | nil => cases hlast
  | cons b s ih =>
    obtain ⟨hb, hs⟩ : e ≠ b ∧ e ∉ s := by simpa using hs
    rw [tidyFrom]
    cases s with
    | nil =>
      obtain rfl : b = a := by simpa using hlast
      rw [if_neg (by simp [ha]), squeeze_of_not_mem hw]
      rfl
    | cons d s =>
      have hlast' : (d :: s).getLast? = some a := by simpa using hlast
      split
      · rw [ih hlast' (by simp [hw, hb]) hs]
        simp
      · rw [ih hlast' List.not_mem_nil hs, squeeze_of_not_mem hw]
        rfl

theorem reflow_run {s : List α} (hs : ∀ a ∈ s, blank a) (u : List α) :
    reflow blank e (s ++ u) = reflow blank e u := by
  rw [reflow, List.dropWhile_append_of_pos hs]
  rfl

theorem reflow_blank {s : List α} (hs : ∀ a ∈ s, blank a) : reflow blank e s = [] := by
  rw [← List.append_nil s, reflow_run hs]
  rfl

/-- A line with a trimmed part that is not empty, in front of other lines. -/
theorem reflow_line (hnl : blank e) {m w w' : List α} {a b : α} (hw : ∀ a ∈ w, blank a)
    (hw' : ∀ a ∈ w', blank a) (hhead : m.head? = some a) (ha : blank a = false)
    (hlast : m.getLast? = some b) (hb : blank b = false) (hm : e ∉ m) (rest : List α) :
    reflow blank e (w ++ (m ++ (w' ++ e :: rest))) =
      m ++ if reflow blank e rest = [] then [] else e :: reflow blank e rest := by
  have hstart : (m ++ (w' ++ e :: rest)).dropWhile blank = m ++ (w' ++ e :: rest) := by
    cases m with
    | nil => cases hhead
    | cons d m =>
      obtain rfl : d = a := by simpa using hhead
      exact List.dropWhile_cons_of_neg (by simp [ha])
  have hrun : ∀ d ∈ w' ++ e :: rest.takeWhile blank, blank d := by
    intro d hd
    rcases List.mem_append.mp hd with hd | hd
    · exact hw' d hd
    · rcases List.mem_cons.mp hd with rfl | hd
      · exact hnl
      · exact List.mem_takeWhile_imp hd
  have hsplit : w' ++ e :: rest = (w' ++ e :: rest.takeWhile blank) ++ rest.dropWhile blank := by
    rw [List.append_assoc, List.cons_append, List.takeWhile_append_dropWhile]
  have hsqueeze : squeeze e (w' ++ e :: rest.takeWhile blank) = [e] := if_pos (by simp)
  rw [reflow_run hw, reflow, hstart, tidy, tidyFrom_append hlast hb,
    tidyFrom_line hlast hb List.not_mem_nil hm, List.nil_append, hsplit]
  refine congrArg (m ++ ·) ?_
  cases hrest : rest.dropWhile blank with
  | nil =>
    have hnone : reflow blank e rest = [] := by
      rw [reflow, hrest]
      rfl
    rw [if_pos hnone, List.append_nil]
    exact tidyFrom_blank hrun []
  | cons d u =>
    have hd : blank d = false := by
      have hnot := List.head?_dropWhile_not blank rest
      rw [hrest] at hnot
      simpa using hnot
    have hreflow : reflow blank e rest = d :: tidy blank e u := by
      rw [reflow, hrest, tidy_cons hd]
    rw [hreflow, if_neg (List.cons_ne_nil _ _), tidy_run hrun hd, hsqueeze]
    rfl

theorem reflow_last {m w w' : List α} {a b : α} (hw : ∀ a ∈ w, blank a) (hw' : ∀ a ∈ w', blank a)
    (hhead : m.head? = some a) (ha : blank a = false) (hlast : m.getLast? = some b)
    (hb : blank b = false) (hm : e ∉ m) : reflow blank e (w ++ (m ++ w')) = m := by
  have hstart : (m ++ w').dropWhile blank = m ++ w' := by
    cases m with
    | nil => cases hhead
    | cons d m =>
      obtain rfl : d = a := by simpa using hhead
      exact List.dropWhile_cons_of_neg (by simp [ha])
  rw [reflow_run hw, reflow, hstart, tidy, tidyFrom_append hlast hb,
    tidyFrom_line hlast hb List.not_mem_nil hm, List.nil_append, tidy, tidyFrom_blank hw',
    List.append_nil]

end Reflow
