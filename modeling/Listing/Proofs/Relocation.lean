import Listing.Proofs.Sites
import Mathlib.Order.MinMax

/-!
# The same outline at other positions

What a composer finds in an outline it finds by the texts of the words and by the order of the
positions. So two statements whose outlines differ in the positions only, the order of which is the
same, have the same site at the one and the other positions (`Site.locate_move`), or are refused for
the same reason, and their edits are the same ones, moved. Where a predicate starts depends on the
text behind WHERE as well, which is left to a condition (`Site.predicateEdits_move`).
-/

namespace Listing

open Text

/-! ## Moving positions -/

def Word.move (f : Nat → Nat) (w : Word) : Word := ⟨f w.start, f w.stop, f w.before, w.text⟩

def Place.move (f : Nat → Nat) (p : Place) : Place := ⟨f p.start, f p.stop, f p.before⟩

def Outline.move (f : Nat → Nat) (o : Outline) : Outline := ⟨o.words.map (Word.move f), f o.codeEnd⟩

def Edit.move (f : Nat → Nat) (e : Edit) : Edit := { e with position := f e.position }

/-- The site of another text with the outline moved. -/
def Site.move (f : Nat → Nat) (text : List UInt8) (site : Site) : Site :=
  ⟨text, site.outline.move f, f site.projection, f site.scope⟩

theorem Outline.move_id (o : Outline) : o.move id = o := by
  have hwords : o.words.map (Word.move id) = o.words := List.map_id o.words
  rw [move, hwords]
  rfl

theorem Edit.map_move_id (es : List Edit) : es.map (Edit.move id) = es := List.map_id es

theorem Word.spells_move (f : Nat → Nat) (w : Word) (name : String) :
    (w.move f).spells name = w.spells name := rfl

/-- Edits are sorted by the order of their positions alone. -/
theorem Edit.sort_map_move {f : Nat → Nat} {es : List Edit}
    (h : ∀ a ∈ es, ∀ b ∈ es, a.position ≤ b.position ↔ f a.position ≤ f b.position) :
    Edit.sort (es.map (Edit.move f)) = (Edit.sort es).map (Edit.move f) := by
  rw [sort, sort, List.map_mergeSort]
  intro a ha b hb
  exact decide_eq_decide.2 (h a ha b hb)

section

variable {f : Nat → Nat} (hf : StrictMono f)

include hf

/-! ## Lookups -/

namespace Outline

variable (o : Outline) (k : Keyword) (ks : List Keyword) (position stop : Nat)

omit hf in
theorem placeAt?_map (ws : List Word) :
    placeAt? k (ws.map (Word.move f)) = (placeAt? k ws).map (Place.move f) := by
  cases ws with
  | nil => rfl
  | cons w ws =>
    rw [List.map_cons, placeAt?, placeAt?]
    split
    · rw [Word.spells_move]
      split <;> rfl
    · rename_i former latter _
      cases ws with
      | nil => rfl
      | cons v ws =>
        have hspells : (w.move f).spells former = true ∧ (v.move f).spells latter = true ↔
            w.spells former = true ∧ v.spells latter = true := Iff.rfl
        simp only [List.map_cons]
        by_cases h : w.spells former = true ∧ v.spells latter = true
        · rw [if_pos (hspells.2 h), if_pos h]
          rfl
        · rw [if_neg (mt hspells.1 h), if_neg h]
          rfl
    · rfl

theorem places_map (ws : List Word) :
    places ks (f position) (ws.map (Word.move f)) =
      (places ks position ws).map (Place.move f) := by
  induction ws with
  | nil => rfl
  | cons w ws ih =>
    have hle : f position ≤ (w.move f).start ↔ position ≤ w.start := hf.le_iff_le
    have hplace : (fun k => placeAt? k ((w :: ws).map (Word.move f))) =
        fun k => (placeAt? k (w :: ws)).map (Place.move f) :=
      funext fun k => placeAt?_map k (w :: ws)
    rw [List.map_cons, places, places, ih, List.map_append, ← List.map_cons, hplace]
    congr 1
    by_cases h : position ≤ w.start
    · rw [if_pos (hle.2 h), if_pos h, List.map_filterMap]
    · rw [if_neg (mt hle.1 h), if_neg h, List.map_nil]

theorem first?_move :
    (o.move f).first? k (f position) = (o.first? k position).map (Place.move f) := by
  rw [first?, move, places_map hf, List.head?_map]
  rfl

theorem last?_move :
    (o.move f).last? k (f position) = (o.last? k position).map (Place.move f) := by
  rw [last?, move, places_map hf, List.getLast?_map]
  rfl

theorem earliest?_move :
    (o.move f).earliest? ks (f position) = (o.earliest? ks position).map (Place.move f) := by
  rw [earliest?, move, places_map hf, List.head?_map]
  rfl

theorem wordsBetween_move :
    (o.move f).wordsBetween (f position) (f stop) =
      (o.wordsBetween position stop).map (Word.move f) := by
  have hbetween : ((fun w : Word => decide (f position ≤ w.start ∧ w.stop ≤ f stop)) ∘
      Word.move f) = fun w : Word => decide (position ≤ w.start ∧ w.stop ≤ stop) :=
    funext fun w => decide_eq_decide.2 (and_congr hf.le_iff_le hf.le_iff_le)
  rw [wordsBetween, move, List.filter_map, hbetween]
  rfl

end Outline

/-! ## Sites -/

namespace Site

open Outline

variable (o : Outline) (site : Site) {text text' : List UInt8} (position : Nat)

theorem wordBehind?_move :
    wordBehind? (o.move f) (f position) = (wordBehind? o position).map (Word.move f) := by
  have hbefore : ((fun w : Word => w.before == f position) ∘ Word.move f) =
      fun w : Word => w.before == position :=
    funext fun w => Bool.eq_iff_iff.2 (by
      simp only [Function.comp_apply, Word.move, beq_iff_eq, hf.injective.eq_iff])
  have hbetween := o.wordsBetween_move hf position o.codeEnd
  have hend : (o.move f).codeEnd = f o.codeEnd := rfl
  rw [wordBehind?, wordBehind?, hend, hbetween, List.head?_map, Option.filter_map, hbefore]

/-- The same outline at other positions gives the same site there, or the same refusal. -/
theorem locate_move (countAlias : String) (hzero : f 0 = 0)
    (h : Outline.of text' = (Outline.of text).move f) :
    locate countAlias text' = (locate countAlias text).map (Site.move f text') := by
  have hselect := (Outline.of text).first?_move hf .select 0
  rw [hzero] at hselect
  simp only [locate, h, hselect]
  cases (Outline.of text).first? .select 0 with
  | none => rfl
  | some select =>
    have hscope : ((((Outline.of text).first? .from select.stop).map (Place.move f)).map
        (·.stop)).getD (f select.stop) =
          f ((((Outline.of text).first? .from select.stop).map (·.stop)).getD select.stop) := by
      cases (Outline.of text).first? .from select.stop <;> rfl
    have hspelled (ws : List Word) (name : String) :
        (ws.map (Word.move f)).any (·.spells name) = ws.any (·.spells name) := by
      rw [List.any_map]
      rfl
    have hquantifier (w : Option Word) (name : String) :
        (w.map (Word.move f)).any (·.spells name) = w.any (·.spells name) := by
      cases w <;> rfl
    have hprojection (w : Option Word) :
        (((w.map (Word.move f)).filter (·.spells "all")).map (·.stop)).getD (f select.stop) =
          f (((w.filter (·.spells "all")).map (·.stop)).getD select.stop) := by
      cases w with
      | none => rfl
      | some w =>
        have hspells : (w.move f).spells "all" = true ↔ w.spells "all" = true := Iff.rfl
        simp only [Option.map_some, Option.filter_some]
        by_cases hall : w.spells "all" = true
        · rw [if_pos (hspells.2 hall), if_pos hall]
          rfl
        · rw [if_neg (mt hspells.1 hall), if_neg hall]
          rfl
    simp only [Option.map_some, Place.move, first?_move hf, hscope, wordBehind?_move hf,
      wordsBetween_move hf, hspelled, hquantifier, hprojection]
    split
    · rfl
    split
    · rfl
    · rfl

theorem paging?_move :
    (site.move f text').paging? = site.paging?.map (Place.move f) :=
  site.outline.earliest?_move hf Keyword.paging site.scope

theorem predicateEnd_move :
    (site.move f text').predicateEnd (f position) = f (site.predicateEnd position) := by
  have hend : (((site.outline.earliest? Keyword.afterWhere position).map (Place.move f)).map
      (·.before)).getD (f site.outline.codeEnd) =
        f (((site.outline.earliest? Keyword.afterWhere position).map (·.before)).getD
          site.outline.codeEnd) := by
    cases site.outline.earliest? Keyword.afterWhere position <;> rfl
  rw [predicateEnd, predicateEnd, hf.monotone.map_max, ← hend, ← earliest?_move hf]
  rfl

omit hf in
theorem countEdit_move (countAlias : String) :
    (site.move f text').countEdit countAlias = (site.countEdit countAlias).move f := rfl

theorem orderEdits_move (order : OrderBy) :
    (site.move f text').orderEdits order = (site.orderEdits order).map (Edit.move f) := by
  have hlast : (site.move f text').outline.last? .orderBy (site.move f text').scope =
      (site.outline.last? .orderBy site.scope).map (Place.move f) :=
    site.outline.last?_move hf .orderBy site.scope
  have hend : (((site.paging?.map (Place.move f)).map (·.before)).getD
      (site.move f text').outline.codeEnd) =
        f ((site.paging?.map (·.before)).getD site.outline.codeEnd) := by
    cases site.paging? <;> rfl
  unfold orderEdits
  rw [hlast, paging?_move hf, hend]
  split
  · rfl
  cases site.outline.last? .orderBy site.scope with
  | some present => rfl
  | none =>
    simp only [Option.map_none, List.map_cons, List.map_nil, Edit.move, hf.monotone.map_max]
    rfl

/-- The edits of a predicate move with the outline if the start of a predicate that is there does,
and none comes of one that is not. -/
theorem predicateEdits_move (clause : WhereClause) (predicate : String)
    (hstart : ∀ present, site.outline.first? .where site.scope = some present →
      let start := present.stop + blankRun (site.text.drop present.stop)
      let start' := f present.stop + blankRun (text'.drop (f present.stop))
      let stop := site.predicateEnd present.stop
      (start < stop ∧ start' = f start) ∨ (stop ≤ start ∧ f stop ≤ start')) :
    (site.move f text').predicateEdits clause predicate =
      (site.predicateEdits clause predicate).map (Edit.move f) := by
  have hfirst : (site.move f text').outline.first? .where (site.move f text').scope =
      (site.outline.first? .where site.scope).map (Place.move f) :=
    site.outline.first?_move hf .where site.scope
  have hscope : (site.move f text').scope = f site.scope := rfl
  unfold predicateEdits
  rw [hfirst]
  split
  · rfl
  cases hpresent : site.outline.first? .where site.scope with
  | none =>
    simp only [Option.map_none, hscope, predicateEnd_move hf]
    rfl
  | some present =>
    have htext : (site.move f text').text = text' := rfl
    simp only [Option.map_some, Place.move, predicateEnd_move hf, htext]
    rcases hstart present hpresent with ⟨hlt, hstart'⟩ | ⟨hle, hle'⟩
    · rw [hstart', if_pos (hf hlt), if_pos hlt]
      rfl
    · rw [if_neg (Nat.not_lt_of_le hle'), if_neg (Nat.not_lt_of_le hle)]
      rfl

end Site

end

end Listing
