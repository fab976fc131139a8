import Mathlib.Data.List.DropRight
import Wireboard.Text.Blank

/-!
# Trimming

Trimming a second time changes nothing (`trimmed_trimmed`): what is left either is empty or has no
blank at either end.  It takes away blanks and nothing else (`exists_append_trim`), however many there
are (`trim_append_append`).
-/

namespace Wireboard

namespace Blank

theorem trimEnd_eq_rdropWhile (cs : List Char) : trimEnd cs = cs.rdropWhile isBlank := rfl

theorem trimEnd_trimEnd (cs : List Char) : trimEnd (trimEnd cs) = trimEnd cs := by
  simp only [trimEnd_eq_rdropWhile]
  exact List.rdropWhile_idempotent ..

/-- Trimming the end brings no blank to the front. -/
theorem dropWhile_trim (cs : List Char) : (trim cs).dropWhile isBlank = trim cs := by
  rw [List.dropWhile_eq_self_iff]
  intro h
  have hpre : trim cs <+: cs.dropWhile isBlank := List.rdropWhile_prefix ..
  have hlen : 0 < (cs.dropWhile isBlank).length := lt_of_lt_of_le h hpre.length_le
  rw [hpre.getElem h]
  exact List.dropWhile_get_zero_not isBlank cs hlen

theorem trim_trim (cs : List Char) : trim (trim cs) = trim cs := by
  calc trim (trim cs) = trimEnd (trim cs) := by rw [trim, dropWhile_trim]
    _ = trim cs := trimEnd_trimEnd _

theorem trim_eq_self {cs : List Char} (h : ∀ c ∈ cs, isBlank c = false) : trim cs = cs := by
  have hfront : cs.dropWhile isBlank = cs := by
    rw [List.dropWhile_eq_self_iff]
    intro hlen
    simp [h _ (List.getElem_mem hlen)]
  rw [trim, hfront, trimEnd_eq_rdropWhile, List.rdropWhile_eq_self_iff]
  intro hne
  simp [h _ (List.getLast_mem hne)]

/-! ## what is taken away -/

theorem exists_append_trim (cs : List Char) :
    ∃ before after, cs = before ++ trim cs ++ after ∧ (∀ c ∈ before, isBlank c = true) ∧
      ∀ c ∈ after, isBlank c = true := by
  let rest := cs.dropWhile isBlank
  have hfront : cs.takeWhile isBlank ++ rest = cs := List.takeWhile_append_dropWhile
  have hback : (rest.reverse.takeWhile isBlank ++ rest.reverse.dropWhile isBlank).reverse = rest := by
    rw [List.takeWhile_append_dropWhile, List.reverse_reverse]
  rw [List.reverse_append] at hback
  refine ⟨cs.takeWhile isBlank, (rest.reverse.takeWhile isBlank).reverse, ?_, ?_, ?_⟩
  · rw [List.append_assoc]
    exact (hfront.symm.trans (congrArg (cs.takeWhile isBlank ++ ·) hback.symm))
  · exact fun c hc => List.mem_takeWhile_imp hc
  · exact fun c hc => List.mem_takeWhile_imp (List.mem_reverse.1 hc)

theorem dropWhile_append_of_blank {before : List Char} (h : ∀ c ∈ before, isBlank c = true)
    (cs : List Char) : (before ++ cs).dropWhile isBlank = cs.dropWhile isBlank :=
  List.dropWhile_append_of_pos h

theorem trimEnd_append_of_blank {after : List Char} (h : ∀ c ∈ after, isBlank c = true)
    (cs : List Char) : trimEnd (cs ++ after) = trimEnd cs := by
  unfold trimEnd
  rw [List.reverse_append,
    dropWhile_append_of_blank fun c hc => h c (List.mem_reverse.1 hc)]

/-- Blanks around a text do not count. -/
theorem trim_append_append {before after : List Char} (hbefore : ∀ c ∈ before, isBlank c = true)
    (hafter : ∀ c ∈ after, isBlank c = true) (cs : List Char) :
    trim (before ++ cs ++ after) = trim cs := by
  have hdrop : after.dropWhile isBlank = [] := List.dropWhile_eq_nil_iff.2 hafter
  rw [trim, trim, List.append_assoc, dropWhile_append_of_blank hbefore, List.dropWhile_append, hdrop]
  split
  · next hblank => rw [List.isEmpty_iff.1 hblank]
  · exact trimEnd_append_of_blank hafter _

end Blank

theorem trimmed_trimmed (s : String) : trimmed (trimmed s) = trimmed s := by
  rw [trimmed, trimmed, String.toList_ofList, Blank.trim_trim]

end Wireboard
