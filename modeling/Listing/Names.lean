/-!
# Sets of names and maps between names

Both keep their entries in increasing order of the names, each name once. Names are compared
character by character by code point, which is also the order of their UTF-8 bytes. The order is
part of the types (`sorted`), since listings of a configuration and the first fault found in it
follow it.
-/

namespace Listing

/-! ## Sets -/

/-- A set of names in increasing order. -/
structure NameSet where
  names : List String
  sorted : names.Pairwise (· < ·)

namespace NameSet

/-- Puts a name in its place in an increasing list that may hold it already. -/
def place (n : String) : List String → List String
  | [] => [n]
  | m :: ms => if n < m then n :: m :: ms else if n = m then m :: ms else m :: place n ms

theorem mem_place {n a : String} {ms : List String} : a ∈ place n ms ↔ a = n ∨ a ∈ ms := by
  fun_induction place n ms with
  | case1 => simp
  | case2 m ms h => simp
  | case3 ms h => simp
  | case4 m ms h h' ih => grind

private theorem lt_of_not_lt_of_ne {a b : String} (h : ¬a < b) (hne : ¬a = b) : b < a :=
  String.not_le.1 fun h' => hne (String.le_antisymm h' (String.not_lt.1 h))

theorem place_sorted {n : String} {ms : List String} (h : ms.Pairwise (· < ·)) :
    (place n ms).Pairwise (· < ·) := by
  fun_induction place n ms with
  | case1 => simp
  | case2 m ms hlt =>
    refine List.pairwise_cons.2 ⟨fun a ha => ?_, h⟩
    rcases List.mem_cons.1 ha with rfl | ha
    · exact hlt
    · exact String.lt_trans hlt ((List.pairwise_cons.1 h).1 a ha)
  | case3 ms hlt => exact h
  | case4 m ms hlt hne ih =>
    obtain ⟨hm, hms⟩ := List.pairwise_cons.1 h
    refine List.pairwise_cons.2 ⟨fun a ha => ?_, ih hms⟩
    rcases mem_place.1 ha with rfl | ha
    · exact lt_of_not_lt_of_ne hlt hne
    · exact hm a ha

def empty : NameSet := ⟨[], .nil⟩

def insert (s : NameSet) (n : String) : NameSet := ⟨place n s.names, place_sorted s.sorted⟩

def ofList (ns : List String) : NameSet := ns.foldl insert empty

def contains (s : NameSet) (n : String) : Bool := s.names.contains n

end NameSet

/-! ## Maps -/

/-- A map from names to names, its keys in increasing order. -/
structure NameMap where
  entries : List (String × String)
  sorted : entries.Pairwise (·.1 < ·.1)

namespace NameMap

/-- Puts an entry in its place in a list with increasing keys, instead of one with the same key. -/
def place (k v : String) : List (String × String) → List (String × String)
  | [] => [(k, v)]
  | e :: es =>
    if k < e.1 then (k, v) :: e :: es
    else if k = e.1 then (k, v) :: es
    else e :: place k v es

theorem fst_of_mem_place {k v : String} {a : String × String} {es : List (String × String)}
    (h : a ∈ place k v es) : a.1 = k ∨ a ∈ es := by
  fun_induction place k v es with
  | case1 => simp_all
  | case2 e es hlt => grind
  | case3 e es hlt => grind
  | case4 e es hlt hne ih => grind

theorem place_sorted {k v : String} {es : List (String × String)}
    (h : es.Pairwise (·.1 < ·.1)) : (place k v es).Pairwise (·.1 < ·.1) := by
  fun_induction place k v es with
  | case1 => simp
  | case2 e es hlt =>
    refine List.pairwise_cons.2 ⟨fun a ha => ?_, h⟩
    rcases List.mem_cons.1 ha with rfl | ha
    · exact hlt
    · exact String.lt_trans hlt ((List.pairwise_cons.1 h).1 a ha)
  | case3 e es hlt =>
    obtain ⟨he, hes⟩ := List.pairwise_cons.1 h
    refine List.pairwise_cons.2 ⟨fun a ha => ?_, hes⟩
    have := he a ha
    simp_all
  | case4 e es hlt hne ih =>
    obtain ⟨he, hes⟩ := List.pairwise_cons.1 h
    refine List.pairwise_cons.2 ⟨fun a ha => ?_, ih hes⟩
    rcases fst_of_mem_place ha with heq | ha
    · rw [heq]
      exact String.not_le.1 fun h' => hne (String.le_antisymm h' (String.not_lt.1 hlt))
    · exact he a ha

def empty : NameMap := ⟨[], .nil⟩

/-- Maps `k` to `v`, whatever it was mapped to before. -/
def insert (m : NameMap) (k v : String) : NameMap := ⟨place k v m.entries, place_sorted m.sorted⟩

def get? (m : NameMap) (k : String) : Option String := m.entries.lookup k

def keys (m : NameMap) : List String := m.entries.map (·.1)

def values (m : NameMap) : List String := m.entries.map (·.2)

end NameMap

end Listing
