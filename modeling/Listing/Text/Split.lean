/-!
# Cutting a text at a separator

`splitOnce` cuts at the first occurrence of a character, `splitTwo` demands that the character
occurs exactly once. Both only remove the separator: writing it back between the parts gives the
text again (`eq_of_splitOnce`, `eq_of_splitTwo`).
-/

namespace Listing.Text

/-- The parts before and after the first `sep`, if there is one. -/
def splitOnce (sep : Char) (s : String) : Option (String × String) :=
  match s.toList.dropWhile (· != sep) with
  | [] => none
  | _ :: after => some (String.ofList (s.toList.takeWhile (· != sep)), String.ofList after)

/-- The two parts of a text that holds `sep` exactly once. -/
def splitTwo (sep : Char) (s : String) : Option (String × String) :=
  match splitOnce sep s with
  | some (a, b) => if b.toList.contains sep then none else some (a, b)
  | none => none

theorem eq_of_splitOnce {sep : Char} {s a b : String} (h : splitOnce sep s = some (a, b)) :
    s = a ++ String.singleton sep ++ b := by
  unfold splitOnce at h
  split at h
  · cases h
  · rename_i c after hd
    obtain ⟨rfl, rfl⟩ := Prod.mk.inj (Option.some.inj h)
    have hc : c = sep := by
      have := List.head?_dropWhile_not (· != sep) s.toList
      simp only [hd] at this
      simpa using this
    subst hc
    have hs := List.takeWhile_append_dropWhile (p := (· != c)) (l := s.toList)
    rw [hd] at hs
    apply String.toList_inj.1
    simpa [String.toList_append] using hs.symm

theorem eq_of_splitTwo {sep : Char} {s a b : String} (h : splitTwo sep s = some (a, b)) :
    s = a ++ String.singleton sep ++ b := by
  unfold splitTwo at h
  split at h
  · rename_i a' b' h'
    split at h
    · cases h
    · obtain ⟨rfl, rfl⟩ := Prod.mk.inj (Option.some.inj h)
      exact eq_of_splitOnce h'
  · cases h

end Listing.Text
