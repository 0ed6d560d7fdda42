import Mathlib.Data.List.DropRight
import VolcanoDb.Lib.Text

/-! # Trimmed texts

What trimming leaves of a text between fillings, the last visible character of
two texts in a row, and the removal of a character from the end of a text.
-/

namespace Text

section Lists

variable {α : Type*} {p : α → Bool} {u v l : List α}

theorem rdropWhile_append (p : α → Bool) (u v : List α) :
    (u ++ v).rdropWhile p = if v.all p then u.rdropWhile p else u ++ v.rdropWhile p := by
  simp only [List.rdropWhile, List.reverse_append, List.dropWhile_append]
  have hall : (v.reverse.dropWhile p).isEmpty = v.all p := by
    rw [Bool.eq_iff_iff, List.isEmpty_iff, List.dropWhile_eq_nil_iff, List.all_eq_true]
    simp only [List.mem_reverse]
  rw [hall]
  split
  · rfl
  · rw [List.reverse_append, List.reverse_reverse]

theorem dropWhile_append_of_all (hu : u.all p) (v : List α) :
    (u ++ v).dropWhile p = v.dropWhile p := by
  have hnil : u.dropWhile p = [] := List.dropWhile_eq_nil_iff.mpr (List.all_eq_true.mp hu)
  rw [List.dropWhile_append, hnil]
  rfl

theorem dropWhile_padded (hu : u.all p) (hv : v.all p)
    (hl : (l.dropWhile p).rdropWhile p = l) :
    ((u ++ l ++ v).dropWhile p).rdropWhile p = l := by
  rw [List.append_assoc, dropWhile_append_of_all hu, List.dropWhile_append]
  split
  · rename_i hnil
    have hl' : l = [] := by
      rw [List.isEmpty_iff.mp hnil] at hl
      exact hl.symm
    have hv' : v.dropWhile p = [] := List.dropWhile_eq_nil_iff.mpr (List.all_eq_true.mp hv)
    rw [hv', hl']
    rfl
  · rw [rdropWhile_append, if_pos hv, hl]

theorem getLast?_rdropWhile_dropWhile (p : α → Bool) (l : List α) :
    ((l.dropWhile p).rdropWhile p).getLast? = (l.rdropWhile p).getLast? := by
  have hfront := List.takeWhile_append_dropWhile (p := p) (l := l)
  have hall : (l.takeWhile p).all p := List.all_eq_true.mpr fun _ => List.mem_takeWhile_imp
  rw [← hfront, rdropWhile_append, hfront]
  split
  · rename_i hrest
    have hleft : (l.dropWhile p).rdropWhile p = [] :=
      List.rdropWhile_eq_nil_iff.mpr (List.all_eq_true.mp hrest)
    have hright : (l.takeWhile p).rdropWhile p = [] :=
      List.rdropWhile_eq_nil_iff.mpr (List.all_eq_true.mp hall)
    rw [hleft, hright]
  · rename_i hrest
    have hne : (l.dropWhile p).rdropWhile p ≠ [] := by
      intro hnil
      exact hrest (List.all_eq_true.mpr (List.rdropWhile_eq_nil_iff.mp hnil))
    rw [List.getLast?_append_of_ne_nil _ hne]

theorem dropWhile_rdropWhile (p : α → Bool) (l : List α) :
    ((l.dropWhile p).rdropWhile p).dropWhile p = (l.dropWhile p).rdropWhile p := by
  rcases hdrop : l.dropWhile p with _ | ⟨c, r⟩
  · rfl
  · have hc : p c = false := by
      have hhead := List.head?_dropWhile_not p l
      rw [hdrop] at hhead
      simpa using hhead
    have hkeep : (c :: r).rdropWhile p = if r.all p then [c] else c :: r.rdropWhile p := by
      have hsingle : [c].rdropWhile p = [c] := by simp [hc]
      rw [← List.singleton_append, rdropWhile_append, hsingle]
      rfl
    rw [hkeep]
    split
    · rw [List.dropWhile_cons_of_neg (by simp [hc])]
    · rw [List.dropWhile_cons_of_neg (by simp [hc])]

end Lists

def endsWith (s : String) (c : Char) : Bool := s.toList.getLast? = some c

def trimEndMatches (s : String) (c : Char) : String :=
  String.ofList (s.toList.rdropWhile (· = c))

theorem toList_trim (s : String) :
    (trim s).toList = (s.toList.dropWhile isWhitespace).rdropWhile isWhitespace := by
  rw [trim, String.toList_ofList]
  rfl

/-- A trimmed text is found again between blanks. -/
theorem trim_padded {u s v : String} (hu : isBlank u) (hv : isBlank v) (hs : trim s = s) :
    trim (u ++ s ++ v) = s := by
  apply String.toList_inj.mp
  have hs' := (toList_trim s).symm.trans (congrArg String.toList hs)
  rw [toList_trim, String.toList_append, String.toList_append]
  exact dropWhile_padded hu hv hs'

theorem trim_append {s t : String} {c : Char} (hs : trim s = s) (hne : s ≠ "")
    (hlast : t.toList.getLast? = some c) (hc : isWhitespace c = false) :
    trim (s ++ t) = s ++ t := by
  have hdrop : s.toList.dropWhile isWhitespace = s.toList := by
    have htrim := dropWhile_rdropWhile isWhitespace s.toList
    rwa [← toList_trim, hs] at htrim
  have hempty : s.toList.isEmpty = false := by simpa using hne
  have hmem : c ∈ t.toList := List.mem_of_getLast? hlast
  have hall : ¬ t.toList.all isWhitespace := by
    intro hall
    rw [List.all_eq_true.mp hall c hmem] at hc
    cases hc
  have hkeep : t.toList.rdropWhile isWhitespace = t.toList := by
    apply List.rdropWhile_eq_self_iff.mpr
    intro hne
    rw [List.getLast?_eq_some_getLast hne] at hlast
    rw [Option.some.inj hlast, hc]
    decide
  apply String.toList_inj.mp
  rw [toList_trim, String.toList_append, List.dropWhile_append, hdrop, hempty, if_neg (by decide),
    rdropWhile_append, if_neg hall, hkeep]

theorem endsWith_trim_append {c : Char} (a b : String) :
    endsWith (trim (a ++ b)) c =
      if isBlank b then endsWith (trim a) c else endsWith (trim b) c := by
  simp only [endsWith, toList_trim, getLast?_rdropWhile_dropWhile, String.toList_append,
    rdropWhile_append, isBlank]
  split
  · rfl
  · rename_i hb
    have hne : b.toList.rdropWhile isWhitespace ≠ [] := by
      intro hnil
      exact hb (List.all_eq_true.mpr (List.rdropWhile_eq_nil_iff.mp hnil))
    rw [List.getLast?_append_of_ne_nil _ hne]

end Text
