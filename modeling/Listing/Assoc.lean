/-!
# Association lists in order of first appearance

`Assoc.alter` changes the value of a key where it stands and appends a key that is new. The keys of
the result are the old ones in their old order, then the new one if it was missing (`keys_alter`),
so a list that is built by altering holds every key once (`nodup_keys_alter`), in the order in which
the keys first came.
-/

namespace Listing.Assoc

variable {α β : Type} [DecidableEq α]

/-- Gives `k` the value `f` makes of its present value, if it has one. -/
def alter (k : α) (f : Option β → β) : List (α × β) → List (α × β)
  | [] => [(k, f none)]
  | (k', v) :: es => if k' = k then (k', f (some v)) :: es else (k', v) :: alter k f es

theorem keys_alter (k : α) (f : Option β → β) (es : List (α × β)) :
    (alter k f es).map (·.1) = if k ∈ es.map (·.1) then es.map (·.1) else es.map (·.1) ++ [k] := by
  induction es with
  | nil => simp [alter]
  | cons e es ih => grind [alter]

theorem mem_keys_alter {k k' : α} {f : Option β → β} {es : List (α × β)} :
    k' ∈ (alter k f es).map (·.1) ↔ k' ∈ es.map (·.1) ∨ k' = k := by
  rw [keys_alter]
  split
  · rename_i hmem
    constructor
    · exact .inl
    · rintro (hold | rfl)
      · exact hold
      · exact hmem
  · rw [List.mem_append, List.mem_singleton]

theorem nodup_keys_alter {k : α} {f : Option β → β} {es : List (α × β)}
    (h : (es.map (·.1)).Nodup) : ((alter k f es).map (·.1)).Nodup := by
  rw [keys_alter]
  split
  · exact h
  · rename_i hmem
    refine List.nodup_append.2 ⟨h, List.pairwise_singleton _ _, ?_⟩
    rintro a ha b hb rfl
    rw [List.mem_singleton.1 hb] at ha
    exact hmem ha

/-- Setting the value of one key leaves the other entries alone. -/
theorem mem_alter_const {k : α} {v : β} {es : List (α × β)} (hnodup : (es.map (·.1)).Nodup)
    {e : α × β} (h : e ∈ alter k (fun _ => v) es) : e = (k, v) ∨ e ∈ es ∧ e.1 ≠ k := by
  induction es with
  | nil => exact .inl (List.mem_singleton.1 h)
  | cons a es ih =>
    obtain ⟨key, old⟩ := a
    have hnot : key ∉ es.map (·.1) := (List.nodup_cons.1 hnodup).1
    unfold alter at h
    split at h
    · rename_i hkey
      rcases List.mem_cons.1 h with rfl | h
      · exact .inl (congrArg (·, v) hkey)
      · refine .inr ⟨List.mem_cons_of_mem _ h, ?_⟩
        intro hold
        rw [hkey, ← hold] at hnot
        exact hnot (List.mem_map_of_mem h)
    · rename_i hkey
      rcases List.mem_cons.1 h with rfl | h
      · exact .inr ⟨List.mem_cons_self, hkey⟩
      · rcases ih (List.nodup_cons.1 hnodup).2 h with heq | ⟨hmem, hne⟩
        · exact .inl heq
        · exact .inr ⟨List.mem_cons_of_mem _ hmem, hne⟩

end Listing.Assoc
