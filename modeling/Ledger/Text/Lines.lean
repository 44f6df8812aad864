import Mathlib.Data.List.Basic

/-! Text read line by line. Every separator ends a line; text behind the last one is an
unfinished line, which a reader that splits at separators still reports. -/
namespace Ledger.Text
variable {α : Type*} [DecidableEq α] {sep : α}

/-- The finished lines of a text and the unfinished one, `line` being its beginning. -/
def splitFrom (sep : α) (line : List α) : List α → List (List α) × List α
  | [] => ([], line)
  | c :: t =>
    if c = sep then
      let split := splitFrom sep [] t
      (line :: split.1, split.2)
    else splitFrom sep (line ++ [c]) t

def finished (sep : α) (t : List α) : List (List α) :=
  (splitFrom sep [] t).1

def unfinished (sep : α) (t : List α) : List α :=
  (splitFrom sep [] t).2

theorem splitFrom_append (line s t : List α) :
    splitFrom sep line (s ++ t) =
      ((splitFrom sep line s).1 ++ (splitFrom sep (splitFrom sep line s).2 t).1,
        (splitFrom sep (splitFrom sep line s).2 t).2) := by
  induction s generalizing line with
  | nil => rfl
  | cons c s ih =>
    rw [List.cons_append, splitFrom, splitFrom]
    split_ifs
    · simp only [ih, List.cons_append]
    · exact ih _

theorem splitFrom_of_not_mem {t : List α} (h : sep ∉ t) (line : List α) :
    splitFrom sep line t = ([], line ++ t) := by
  induction t generalizing line with
  | nil => simp [splitFrom]
  | cons c t ih =>
    rw [splitFrom, if_neg (fun hc => h (by simp [hc])), ih fun ht => h (List.mem_cons_of_mem _ ht)]
    simp

theorem splitFrom_line {t : List α} (h : sep ∉ t) (line : List α) :
    splitFrom sep line (t ++ [sep]) = ([line ++ t], []) := by
  rw [splitFrom_append, splitFrom_of_not_mem h]
  simp [splitFrom]

theorem finished_append_of_not_mem (s : List α) {t : List α} (h : sep ∉ t) :
    finished sep (s ++ t) = finished sep s := by
  rw [finished, splitFrom_append, splitFrom_of_not_mem h]
  exact List.append_nil _

theorem unfinished_append_of_not_mem (s : List α) {t : List α} (h : sep ∉ t) :
    unfinished sep (s ++ t) = unfinished sep s ++ t := by
  rw [unfinished, splitFrom_append, splitFrom_of_not_mem h]
  rfl

theorem finished_append_line (s : List α) {t : List α} (h : sep ∉ t) :
    finished sep (s ++ (t ++ [sep])) = finished sep s ++ [unfinished sep s ++ t] := by
  rw [finished, splitFrom_append, splitFrom_line h]
  rfl

theorem unfinished_append_line (s : List α) {t : List α} (h : sep ∉ t) :
    unfinished sep (s ++ (t ++ [sep])) = [] := by
  rw [unfinished, splitFrom_append, splitFrom_line h]

private theorem splitFrom_unfinished_iff (line t : List α) :
    (splitFrom sep line t).2 = [] ↔ line = [] ∧ t = [] ∨ t.getLast? = some sep := by
  induction t generalizing line with
  | nil => simp [splitFrom]
  | cons c t ih =>
    rw [splitFrom]
    split_ifs with hc
    · subst hc
      rw [ih]
      cases t <;> simp
    · rw [ih]
      cases t with
      | nil => simp [hc]
      | cons d t => simp

theorem unfinished_eq_nil_iff (t : List α) :
    unfinished sep t = [] ↔ t = [] ∨ t.getLast? = some sep := by
  rw [unfinished, splitFrom_unfinished_iff]
  simp

/-- `while (std::getline(in, line))`: the last call fails when it extracts nothing. -/
def getlinesFrom (sep : α) (line : List α) : List α → List (List α)
  | [] => if line = [] then [] else [line]
  | c :: t => if c = sep then line :: getlinesFrom sep [] t else getlinesFrom sep (line ++ [c]) t

def getlines (sep : α) (t : List α) : List (List α) :=
  getlinesFrom sep [] t

private theorem getlinesFrom_eq (line t : List α) :
    getlinesFrom sep line t = (splitFrom sep line t).1 ++
      if (splitFrom sep line t).2 = [] then [] else [(splitFrom sep line t).2] := by
  induction t generalizing line with
  | nil => rfl
  | cons c t ih =>
    rw [getlinesFrom, splitFrom]
    by_cases hc : c = sep
    · rw [if_pos hc, if_pos hc, ih]
      rfl
    · rw [if_neg hc, if_neg hc]
      exact ih _

theorem getlines_eq (t : List α) :
    getlines sep t = finished sep t ++ if unfinished sep t = [] then [] else [unfinished sep t] :=
  getlinesFrom_eq [] t

theorem getlines_of_unfinished_nil {t : List α} (h : unfinished sep t = []) :
    getlines sep t = finished sep t := by
  rw [getlines_eq, if_pos h, List.append_nil]

theorem getlines_of_unfinished {t : List α} (h : unfinished sep t ≠ []) :
    getlines sep t = finished sep t ++ [unfinished sep t] := by
  rw [getlines_eq, if_neg h]

/-- Text behind an unfinished line is read together with it. -/
theorem unfinished_append_mem_getlines (s : List α) {t rest : List α} (ht : t ≠ []) (h : sep ∉ t)
    (hrest : rest = [] ∨ ∃ r, rest = sep :: r) :
    unfinished sep s ++ t ∈ getlines sep (s ++ (t ++ rest)) := by
  rcases hrest with rfl | ⟨r, rfl⟩
  · have hun := unfinished_append_of_not_mem s h
    rw [List.append_nil, getlines_of_unfinished (by rw [hun]; simp [ht]), hun]
    simp
  · have hsplit : s ++ (t ++ sep :: r) = s ++ (t ++ [sep]) ++ r := by simp
    have hfin : finished sep (s ++ (t ++ [sep]) ++ r) =
        finished sep (s ++ (t ++ [sep])) ++
          (splitFrom sep (splitFrom sep [] (s ++ (t ++ [sep]))).2 r).1 := by
      rw [finished, splitFrom_append]
      rfl
    rw [getlines_eq, hsplit, hfin, finished_append_line s h]
    simp

end Ledger.Text
