import Cerebellum.Lib.Reflow
import Cerebellum.Quoting
import Cerebellum.Seeding

/-! The text of a source that is loaded by its id: its lines trimmed, the empty ones dropped. What
this does to a quoted text and to a block comment. -/
namespace Cerebellum
open Text Reflow

/-- `str::trim` in pieces. -/
theorem Text.trim_cases (s : Text) : (∀ c ∈ s, isWhitespace c) ∨
    ∃ w w' a b, s = w ++ (trim s ++ w') ∧ (∀ c ∈ w, isWhitespace c) ∧
      (∀ c ∈ w', isWhitespace c) ∧ (trim s).head? = some a ∧ isWhitespace a = false ∧
      (trim s).getLast? = some b ∧ isWhitespace b = false := by
  by_cases h : trim s = []
  · exact .inl (trim_eq_nil.mp h)
  · obtain ⟨a, ha⟩ := Option.isSome_iff_exists.mp (List.isSome_head?.mpr h)
    have hb := List.getLast?_eq_some_getLast h
    refine .inr ⟨s.takeWhile isWhitespace, (s.dropWhile isWhitespace).rtakeWhile isWhitespace,
      a, _, ?_, fun c hc => List.mem_takeWhile_imp hc, fun c hc => List.mem_rtakeWhile_imp hc,
      ha, trim_head s a ha, hb, trim_last s _ hb⟩
    rw [trim_eq, List.rdropWhile_append_rtakeWhile, List.takeWhile_append_dropWhile]

theorem trim_stripCr (l : Text) : trim (stripCr l) = trim l := by
  unfold stripCr
  split
  · next h =>
    have hsplit : l = l.dropLast ++ ['\r'] := (List.dropLast_append_getLast? '\r' h).symm
    have hcr : isWhitespace '\r' := rfl
    rw [trim_eq, trim_eq]
    conv_rhs => rw [hsplit, List.dropWhile_append]
    split
    · next hempty =>
      rw [List.isEmpty_iff.mp hempty, List.dropWhile_cons_of_pos hcr]
      rfl
    · rw [List.rdropWhile_concat_pos _ _ _ hcr]
  · rfl

def nonBlank (lines : List Text) : List Text := (lines.map trim).filter fun l => !l.isEmpty

theorem nonBlank_append (ls ls' : List Text) :
    nonBlank (ls ++ ls') = nonBlank ls ++ nonBlank ls' := by
  rw [nonBlank, List.map_append, List.filter_append]
  rfl

theorem nonBlank_cons (l : Text) (ls : List Text) :
    nonBlank (l :: ls) = (if trim l = [] then [] else [trim l]) ++ nonBlank ls := by
  rw [nonBlank, List.map_cons, List.filter_cons]
  by_cases h : trim l = [] <;> simp [h, nonBlank]

theorem nonBlank_lines (s : Text) : nonBlank (lines s) = nonBlank (s.splitOn '\n') := by
  have hstrip : ∀ ls : List Text, nonBlank (ls.map stripCr) = nonBlank ls := by
    intro ls
    rw [nonBlank, List.map_map]
    refine congrArg _ (List.map_congr_left fun l _ => ?_)
    exact trim_stripCr l
  obtain ⟨ls, l, hparts⟩ := (List.eq_nil_or_concat (s.splitOn '\n')).resolve_left
    (List.splitOn_ne_nil _ _)
  have hlines : lines s = ls.map stripCr ++ [l].filter fun l => !l.isEmpty := by
    rw [lines, hparts]
    simp
  rw [hlines, hparts, nonBlank_append, hstrip, List.concat_eq_append, nonBlank_append]
  refine congrArg _ ?_
  cases l with
  | nil => rfl
  | cons c l => rfl

/-- A line in front of lines that are not empty. -/
theorem join_cons (l : Text) {ls : List Text} (h : ∀ m ∈ ls, m ≠ []) :
    Text.join ['\n'] (l :: ls) =
      l ++ if Text.join ['\n'] ls = [] then [] else '\n' :: Text.join ['\n'] ls := by
  cases ls with
  | nil => simp [Text.join, List.intercalate]
  | cons m ls =>
    have hne : Text.join ['\n'] (m :: ls) ≠ [] := by
      have hm := h m (by simp)
      cases ls <;> simp [Text.join, List.intercalate, hm]
    rw [if_neg hne]
    simp [Text.join, List.intercalate]

theorem nonBlank_ne_nil {ls : List Text} : ∀ m ∈ nonBlank ls, m ≠ [] := by
  intro m hm
  have hne := (List.mem_filter.mp hm).2
  rintro rfl
  cases hne

/-- The lines that are not blank, joined again. -/
theorem nonBlank_join (s : Text) :
    Text.join ['\n'] (nonBlank (s.splitOn '\n')) = reflow isWhitespace '\n' s := by
  have hnl : isWhitespace '\n' := rfl
  induction hlen : s.length using Nat.strong_induction_on generalizing s with
  | _ n ih =>
  by_cases hmem : '\n' ∈ s
  · obtain ⟨l, rest, hnot, rfl⟩ : ∃ l rest, '\n' ∉ l ∧ s = l ++ '\n' :: rest := by
      obtain ⟨l, rest, hs, hl⟩ := List.eq_append_cons_of_mem hmem
      exact ⟨l, rest, hl, hs⟩
    have hrest := ih rest.length (by rw [← hlen]; simp; omega) rest rfl
    rw [List.splitOn_append_cons_self, List.splitOn_eq_singleton hnot, List.singleton_append,
      nonBlank_cons]
    rcases Text.trim_cases l with hblank | ⟨w, w', a, b, hl, hw, hw', hhead, ha, hlast, hb⟩
    · have hrun : ∀ c ∈ l ++ ['\n'], isWhitespace c := by
        intro c hc
        rcases List.mem_append.mp hc with hc | hc
        · exact hblank c hc
        · rw [List.mem_singleton.mp hc]
          exact hnl
      have hreflow := reflow_run (e := '\n') hrun rest
      rw [List.append_assoc, List.singleton_append] at hreflow
      rw [if_pos (trim_eq_nil.mpr hblank), List.nil_append, hrest, hreflow]
    · have hne : trim l ≠ [] := by
        intro hnil
        rw [hnil] at hhead
        cases hhead
      have htrim : '\n' ∉ trim l := by
        intro hin
        exact hnot (by rw [hl]; simp [hin])
      have hline := reflow_line (e := '\n') hnl hw hw' hhead ha hlast hb htrim rest
      have hsplit : l ++ '\n' :: rest = w ++ (trim l ++ (w' ++ '\n' :: rest)) := by
        conv_lhs => rw [hl]
        simp
      rw [if_neg hne, List.singleton_append, join_cons _ nonBlank_ne_nil, hrest, hsplit, hline]
  · rw [List.splitOn_eq_singleton hmem, nonBlank_cons]
    rcases Text.trim_cases s with hblank | ⟨w, w', a, b, hs, hw, hw', hhead, ha, hlast, hb⟩
    · rw [if_pos (trim_eq_nil.mpr hblank), reflow_blank hblank]
      rfl
    · have hne : trim s ≠ [] := by
        intro hnil
        rw [hnil] at hhead
        cases hhead
      have htrim : '\n' ∉ trim s := by
        intro hin
        exact hmem (by rw [hs]; simp [hin])
      have hlast := reflow_last (e := '\n') hw hw' hhead ha hlast hb htrim
      rw [← hs] at hlast
      rw [if_neg hne, hlast]
      simp [nonBlank, Text.join, List.intercalate]

/-- The text that is consulted when a source is loaded by its id. -/
theorem loadedClauses_text (content : String) : (joinLines (loadedClauses content)).toList =
    reflow isWhitespace '\n' content.toList := by
  rw [← nonBlank_join, ← nonBlank_lines, joinLines, String.toList_intercalate, loadedClauses,
    List.map_map, Text.join, nonBlank]
  simp

end Cerebellum
