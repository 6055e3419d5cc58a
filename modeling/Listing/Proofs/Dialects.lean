import Listing.Proofs.BoundValues
import Listing.Proofs.Exchanging
import Listing.Proofs.Failures
import Mathlib

/-!
# One request in both dialects

`Model.prepare_dialects`: a request fails in both dialects with one error, or is prepared in both.
The two statements have the text of the base and all that is inserted around the predicate in common
(`Slot`), and as many parameters, which differ at most where a pattern is matched with regard to
case (`WhereClause.binder?`); without any pattern the text of the one is that of the other with the
placeholders exchanged (`Composed.exchanged`).

The places of the insertions are found in the base statement alone, so a predicate fits into the
same gap whatever its text (`Edit.splice?_gap`). Its values are those of its conditions, one after
the other, whatever they are numbered from (`WhereClause.params_render`).
-/

namespace Listing

open Text

/-! ## The values of a clause -/

namespace Condition

/-- How many values a condition binds: a range both of its bounds, or none if it does not have two.
-/
def valueCount (c : Condition) : Nat :=
  if c.comparison = .between then (if c.value.bounds? = some 2 then 2 else 0) else 1

/-- Whether a condition matches a pattern with regard to case. -/
def isSensiblePattern (c : Condition) : Bool := c.comparison.isPattern && c.caseSensitive

theorem length_params_render (d : Dialect) (n : Nat) (c : Condition) :
    (c.render d n).params.length = c.valueCount := by
  unfold valueCount
  split
  · rename_i hbetween
    obtain ⟨column, comparison, value, caseSensitive⟩ := c
    obtain rfl : comparison = .between := hbetween
    exact (render_between d n column value caseSensitive).2
  · rename_i hbetween
    exact (render_single d n hbetween).2

/-- Values do not depend on the number of their placeholder. -/
theorem params_render (d : Dialect) (n : Nat) (c : Condition) :
    (c.render d n).params = (c.render d 0).params := by
  unfold render
  split
  · rfl
  · rfl
  · rfl
  · split <;> rfl

/-- Without regard to case both dialects write patterns alike, and all other values always. -/
theorem params_dialects {c : Condition} (h : c.isSensiblePattern = false) :
    (c.render .postgres 0).params = (c.render .sqlite 0).params := by
  unfold render
  split
  · rfl
  · rfl
  · rfl
  · split
    · rename_i hpattern
      have hcase : c.caseSensitive = false := by
        rw [isSensiblePattern, Bool.and_eq_false_iff] at h
        rcases h with h | h
        · rw [hpattern] at h
          cases h
        · exact h
      rw [hcase]
      rfl
    · rfl

end Condition

theorem Fragment.params_sequence {α : Type} {f : Nat → α → Fragment}
    (h : ∀ n a, (f n a).params = (f 0 a).params) (n : Nat) (as : List α) :
    (sequence f n as).flatMap (·.params) = as.flatMap fun a => (f 0 a).params := by
  induction as generalizing n with
  | nil => rfl
  | cons a as ih => rw [sequence, List.flatMap_cons, List.flatMap_cons, h, ih]

namespace WhereClause

/-- The conditions of a clause in the order of their groups. -/
def conditions (clause : WhereClause) : List Condition := clause.groups.flatten

/-- The values of a clause: those of its conditions, one after the other. -/
def values (d : Dialect) (clause : WhereClause) : List Value :=
  clause.conditions.flatMap fun c => (c.render d 0).params

/-- For each value of a clause the condition that it belongs to. -/
def binders (clause : WhereClause) : List Condition :=
  clause.conditions.flatMap fun c => List.replicate c.valueCount c

/-- The condition that a parameter of a statement belongs to, if it does not belong to the base
statement with its `front` parameters. -/
def binder? (clause : WhereClause) (front i : Nat) : Option Condition :=
  if front ≤ i then clause.binders[i - front]? else none

theorem params_render (d : Dialect) (n : Nat) (clause : WhereClause) :
    (clause.render d n).params = clause.values d := by
  have hgroup (m : Nat) (group : List Condition) :
      (renderGroup d m group).params = group.flatMap fun c => (c.render d 0).params :=
    Fragment.params_sequence (Condition.params_render d) m group
  have hgroups := Fragment.params_sequence (f := renderGroup d)
    (fun m group => (hgroup m group).trans (hgroup 0 group).symm) n clause.groups
  rw [values, conditions, ← List.flatMap_id, List.flatMap_assoc]
  exact hgroups.trans (List.flatMap_congr fun group _ => hgroup 0 group)

end WhereClause

/-- The values of conditions in both dialects are equal where they belong to no pattern that is
matched with regard to case. -/
theorem Condition.getElem?_dialects {cs : List Condition} {k : Nat}
    (h : ∀ c ∈ (cs.flatMap fun c => List.replicate c.valueCount c)[k]?,
      c.isSensiblePattern = false) :
    (cs.flatMap fun c => (c.render .postgres 0).params)[k]? =
      (cs.flatMap fun c => (c.render .sqlite 0).params)[k]? := by
  induction cs generalizing k with
  | nil => rfl
  | cons c cs ih =>
    have hpostgres := length_params_render .postgres 0 c
    have hsqlite := length_params_render .sqlite 0 c
    rw [List.flatMap_cons] at h
    rw [List.flatMap_cons, List.flatMap_cons]
    by_cases hk : k < c.valueCount
    · have hc : c.isSensiblePattern = false := by
        apply h
        rw [List.getElem?_append_left (by simpa using hk)]
        simp [hk]
      rw [List.getElem?_append_left (by omega), List.getElem?_append_left (by omega),
        params_dialects hc]
    · rw [List.getElem?_append_right (by omega), List.getElem?_append_right (by omega), hpostgres,
        hsqlite]
      apply ih
      rwa [List.getElem?_append_right (by simpa using hk), List.length_replicate] at h

/-! ## Gaps for a predicate -/

/-- An edit whose text may be left open. -/
structure OpenEdit where
  position : Nat
  text? : Option String

/-- The edit with a text where it has none. -/
def OpenEdit.fill (text : String) (x : OpenEdit) : Edit := ⟨x.position, x.text?.getD text⟩

namespace Edit

/-- An edit as one whose text is not open. -/
def given (e : Edit) : OpenEdit := ⟨e.position, some e.text⟩

theorem map_fill_given (text : String) (es : List Edit) :
    (es.map given).map (OpenEdit.fill text) = es := by
  rw [List.map_map]
  exact List.map_id es

/-- A text is filled in only where one is missing. -/
theorem map_fill_closed {es : List Edit} {xs : List OpenEdit}
    (h : ∀ x ∈ xs, ∃ e ∈ es, given e = x) (text : String) :
    xs.map (OpenEdit.fill text) = xs.map (OpenEdit.fill "") := by
  apply List.map_congr_left
  intro x hx
  obtain ⟨e, -, rfl⟩ := h x hx
  rfl

theorem sort_map_fill (text : String) (xs : List OpenEdit) :
    sort (xs.map (OpenEdit.fill text)) =
      (xs.mergeSort fun x y => decide (x.position ≤ y.position)).map (OpenEdit.fill text) := by
  rw [sort, List.map_mergeSort]
  intro x _ y _
  rfl

/-- An edit is sorted to its place whatever it inserts. -/
theorem sort_gap (front back : List Edit) (position : Nat) :
    ∃ front' back', (∀ e ∈ front' ++ back', e ∈ front ++ back) ∧
      ∀ text, sort (front ++ ⟨position, text⟩ :: back) = front' ++ ⟨position, text⟩ :: back' := by
  obtain ⟨xs, hxs⟩ : ∃ xs : List OpenEdit,
      xs = front.map given ++ ⟨position, none⟩ :: back.map given := ⟨_, rfl⟩
  have hfill (text : String) :
      xs.map (OpenEdit.fill text) = front ++ ⟨position, text⟩ :: back := by
    rw [hxs, List.map_append, List.map_cons, map_fill_given, map_fill_given]
    rfl
  have hperm := List.mergeSort_perm xs fun x y => decide (x.position ≤ y.position)
  have hopen : (⟨position, none⟩ : OpenEdit) ∈ xs := by
    rw [hxs]
    exact List.mem_append_right _ List.mem_cons_self
  obtain ⟨A, B, hsorted⟩ := List.append_of_mem (hperm.mem_iff.2 hopen)
  -- the others are edits as before, in another order
  have hothers : (A ++ B).Perm ((front ++ back).map given) := by
    rw [hsorted, hxs] at hperm
    rw [List.map_append]
    exact (List.perm_middle.symm.trans (hperm.trans List.perm_middle)).cons_inv
  have hgiven (x : OpenEdit) (hx : x ∈ A ++ B) : ∃ e ∈ front ++ back, given e = x :=
    List.mem_map.1 (hothers.mem_iff.1 hx)
  refine ⟨A.map (OpenEdit.fill ""), B.map (OpenEdit.fill ""), fun e he => ?_, fun text => ?_⟩
  · rw [← List.map_append] at he
    obtain ⟨x, hx, rfl⟩ := List.mem_map.1 he
    obtain ⟨e, he', rfl⟩ := hgiven x hx
    exact he'
  · rw [← hfill, sort_map_fill, hsorted, List.map_append, List.map_cons,
      map_fill_closed (fun x hx => hgiven x (List.mem_append_left B hx)) text,
      map_fill_closed (fun x hx => hgiven x (List.mem_append_right A hx)) text]
    rfl

/-- An edit leaves the pieces in front of it and behind it as they are whatever it inserts. -/
theorem piecesFrom_gap {base : List UInt8} {cursor position : Nat} {front back : List Edit}
    {text : String} {ps : List Piece}
    (h : piecesFrom base cursor (front ++ ⟨position, text⟩ :: back) = some ps) :
    ∃ before after, before.filterMap Piece.addedText? = front.map (·.text) ∧
      after.filterMap Piece.addedText? = back.map (·.text) ∧
      ps = before ++ .added text :: after ∧
      ∀ text', piecesFrom base cursor (front ++ ⟨position, text'⟩ :: back) =
        some (before ++ .added text' :: after) := by
  induction front generalizing cursor ps with
  | nil =>
    obtain ⟨hfront, hback, t, ps', hkept, hps', rfl⟩ := piecesFrom_cons h
    refine ⟨[.kept t], ps', rfl, added_of_piecesFrom hps', rfl, fun text' => ?_⟩
    rw [List.nil_append, piecesFrom, if_pos ⟨hfront, hback⟩, ← hkept, ofBytes?_bytes, hps']
    rfl
  | cons e front ih =>
    obtain ⟨hfront, hback, t, ps', hkept, hps', rfl⟩ := piecesFrom_cons h
    obtain ⟨before, after, hbefore, hafter, rfl, hall⟩ := ih hps'
    refine ⟨.kept t :: .added e.text :: before, after, ?_, hafter, rfl, fun text' => ?_⟩
    · rw [List.map_cons, ← hbefore]
      rfl
    · rw [List.cons_append, piecesFrom, if_pos ⟨hfront, hback⟩, ← hkept, ofBytes?_bytes, hall text']
      rfl

/-- An edit fills a gap that does not depend on what it inserts. -/
theorem splice?_gap {base : List UInt8} {position : Nat} {front back : List Edit} {text : String}
    {ps : List Piece} (h : splice? base (front ++ ⟨position, text⟩ :: back) = some ps) :
    ∃ before after,
      (∀ t ∈ (before ++ after).filterMap Piece.addedText?, ∃ e ∈ front ++ back, t = e.text) ∧
      ps = before ++ .added text :: after ∧
      ∀ text', splice? base (front ++ ⟨position, text'⟩ :: back) =
        some (before ++ .added text' :: after) := by
  obtain ⟨front', back', hmem, hsort⟩ := sort_gap front back position
  rw [splice?, hsort] at h
  obtain ⟨before, after, hbefore, hafter, rfl, hall⟩ := piecesFrom_gap h
  refine ⟨before, after, fun t ht => ?_, rfl, fun text' => ?_⟩
  · rw [List.filterMap_append, hbefore, hafter, ← List.map_append] at ht
    obtain ⟨e, he, rfl⟩ := List.mem_map.1 ht
    exact ⟨e, hmem e he, rfl⟩
  · rw [splice?, hsort, hall text']

/-- Only what the edits insert is added. -/
theorem exists_of_splice? {base : List UInt8} {es : List Edit} {ps : List Piece} {t : String}
    (h : splice? base es = some ps) (ht : t ∈ ps.filterMap Piece.addedText?) :
    ∃ e ∈ es, e.text = t := by
  rw [added_of_piecesFrom h] at ht
  obtain ⟨e, he, rfl⟩ := List.mem_map.1 ht
  exact ⟨e, (List.mergeSort_perm es _).mem_iff.1 he, rfl⟩

end Edit

/-- The last edit for a predicate inserts it, between texts that do not depend on it. -/
theorem Site.exists_gap (site : Site) {clause : WhereClause} (h : clause.isEmpty = false) :
    ∃ front position opening closing, (∀ e ∈ front, Unmarked e.text) ∧ Unmarked opening ∧
      Unmarked closing ∧ ∀ predicate, site.predicateEdits clause predicate =
        front ++ [⟨position, opening ++ predicate ++ closing⟩] := by
  have hopen : Unmarked ") AND " := by decide
  unfold predicateEdits
  simp only [h, Bool.false_eq_true, ↓reduceIte]
  cases site.outline.first? .where site.scope with
  | none =>
    refine ⟨[], site.predicateEnd site.scope, " WHERE ", "", by simp, by decide, by decide, ?_⟩
    intro predicate
    rw [String.append_empty]
    rfl
  | some present =>
    dsimp only
    split
    · have hfront : ∀ e ∈ [(⟨present.stop + blankRun (site.text.drop present.stop), "("⟩ : Edit)],
          Unmarked e.text := by
        intro e he
        rw [List.mem_singleton.1 he]
        exact (by decide : Unmarked "(")
      split
      · refine ⟨_, site.predicateEnd present.stop, ") AND (", ")", hfront, by decide, by decide, ?_⟩
        intro predicate
        have htext : ") AND " ++ ("(" ++ predicate ++ ")") = ") AND (" ++ predicate ++ ")" := by
          rw [← String.append_assoc, ← String.append_assoc]
          rfl
        rw [htext]
        rfl
      · refine ⟨_, site.predicateEnd present.stop, ") AND ", "", hfront, by decide, by decide, ?_⟩
        intro predicate
        rw [String.append_empty]
        rfl
    · refine ⟨[], site.predicateEnd present.stop, " ", "", by simp, by decide, by decide, ?_⟩
      intro predicate
      rw [String.append_empty]
      rfl

/-! ## Statements around a predicate -/

/-- A statement with a place left open for a predicate. -/
structure Slot where
  before : List Piece
  opening : String
  closing : String
  after : List Piece

/-- The pieces of a statement with a predicate in its slot. -/
def Slot.fill (slot : Slot) (predicate : String) : List Piece :=
  slot.before ++ .added (slot.opening ++ predicate ++ slot.closing) :: slot.after

theorem Piece.map_exchange {ps : List Piece}
    (h : ∀ t ∈ ps.filterMap Piece.addedText?, Unmarked t) : ps.map Piece.exchange = ps := by
  have hsame : ∀ p ∈ ps, p.exchange = p := by
    intro p hp
    cases p with
    | kept t => rfl
    | added t => exact (h t (List.mem_filterMap.2 ⟨.added t, hp, rfl⟩)).exchange_added
  exact (List.map_congr_left hsame).trans (List.map_id ps)

/-- A statement without placeholders around its gap. -/
structure Slot.IsUnmarked (slot : Slot) : Prop where
  before : ∀ t ∈ slot.before.filterMap Piece.addedText?, Unmarked t
  opening : Unmarked slot.opening
  closing : Unmarked slot.closing
  after : ∀ t ∈ slot.after.filterMap Piece.addedText?, Unmarked t

/-- The placeholders of a statement are those of its predicate. -/
theorem Slot.IsUnmarked.map_exchange {slot : Slot} (h : slot.IsUnmarked)
    {predicate predicate' : String} (hpredicate : Exchanges predicate predicate') :
    (slot.fill predicate).map Piece.exchange = slot.fill predicate' := by
  have hfront := (Exchanges.of_unmarked h.opening).append hpredicate
  have htext := hfront.append (.of_unmarked h.closing)
  have hpiece : (Piece.added (slot.opening ++ predicate ++ slot.closing)).exchange =
      .added (slot.opening ++ predicate' ++ slot.closing) := by
    rw [Piece.exchange, htext.eq, String.ofList_toList]
  rw [fill, List.map_append, List.map_cons, Piece.map_exchange h.before, Piece.map_exchange h.after,
    hpiece]
  rfl

namespace Site

variable {site : Site}

theorem unmarked_countEdit {countAlias : String} (h : Identifier.isPlain countAlias = true) :
    Unmarked (site.countEdit countAlias).text := by
  have halias := Unmarked.of_isQualified (Identifier.isQualified_of_isPlain h)
  exact (Unmarked.append (by decide) halias).append (by decide)

theorem unmarked_orderEdits {order : OrderBy}
    (h : ∀ column ∈ order.columns, Identifier.isQualified column = true) :
    ∀ e ∈ site.orderEdits order, Unmarked e.text := by
  have horder := OrderBy.unmarked_render h
  intro e he
  obtain ⟨-, htext | htext⟩ := text_of_mem_orderEdits he
  · rw [htext]
    exact Unmarked.append (by decide) horder
  · rw [htext]
    exact (Unmarked.append (by decide) horder).append (by decide)

/-- A predicate fills a gap of a statement that does not depend on it. -/
theorem exists_slot {base : List UInt8} {countAlias predicate : String} {clause : WhereClause}
    {order : OrderBy} {ps : List Piece} (hempty : clause.isEmpty = false)
    (halias : Identifier.isPlain countAlias = true)
    (horder : ∀ column ∈ order.columns, Identifier.isQualified column = true)
    (h : Edit.splice? base (site.countEdit countAlias :: site.predicateEdits clause predicate ++
      site.orderEdits order) = some ps) :
    ∃ slot : Slot, slot.IsUnmarked ∧ ∀ predicate', Edit.splice? base
      (site.countEdit countAlias :: site.predicateEdits clause predicate' ++
        site.orderEdits order) = some (slot.fill predicate') := by
  obtain ⟨front, position, opening, closing, hfront, hopening, hclosing, hgap⟩ :=
    site.exists_gap hempty
  have hedits : ∀ predicate', site.countEdit countAlias :: site.predicateEdits clause predicate' ++
      site.orderEdits order = (site.countEdit countAlias :: front) ++
        ⟨position, opening ++ predicate' ++ closing⟩ :: site.orderEdits order := by
    intro predicate'
    rw [hgap, List.cons_append, List.append_assoc, List.singleton_append, List.cons_append]
  have hunmarked : ∀ e ∈ (site.countEdit countAlias :: front) ++ site.orderEdits order,
      Unmarked e.text := by
    intro e he
    rcases List.mem_append.1 he with he | he
    · rcases List.mem_cons.1 he with rfl | he
      · exact site.unmarked_countEdit halias
      · exact hfront e he
    · exact site.unmarked_orderEdits horder e he
  rw [hedits] at h
  obtain ⟨before, after, hadded, -, hall⟩ := Edit.splice?_gap h
  have haround : ∀ t ∈ (before ++ after).filterMap Piece.addedText?, Unmarked t := by
    intro t ht
    obtain ⟨e, he, rfl⟩ := hadded t ht
    exact hunmarked e he
  rw [List.filterMap_append] at haround
  refine ⟨⟨before, opening, closing, after⟩, ⟨fun t ht => haround t (List.mem_append_left _ ht),
    hopening, hclosing, fun t ht => haround t (List.mem_append_right _ ht)⟩, fun predicate' => ?_⟩
  rw [hedits, hall]
  rfl

end Site

theorem Limit.unmarked_tail (limit : Limit) :
    ∀ t ∈ limit.tail.filterMap Piece.addedText?, Unmarked t := by
  intro t ht
  unfold tail at ht
  split at ht
  · obtain rfl : t = " " ++ limit.render := List.mem_singleton.1 ht
    exact Unmarked.append (by decide) limit.unmarked_render
  · cases ht

/-! ## Statements in both dialects -/

/-- A statement with the placeholders that were inserted exchanged. -/
def Composed.exchanged (c : Composed) : String := String.join (c.pieces.map (·.exchange.text))

/-- Two statements that are the same but for their clause, which the one has in the one dialect and
the other in the other, its placeholders numbered from `n`. -/
def Composed.SameAround (c c' : Composed) (clause : WhereClause) (n : Nat) : Prop :=
  (clause.isEmpty = true ∧ c.pieces = c'.pieces) ∨ ∃ slot : Slot,
    c.pieces = slot.fill (clause.render .postgres n).sql ∧
      c'.pieces = slot.fill (clause.render .sqlite n).sql

/-- What the statements for one clause, for PostgreSQL and for SQLite, have in common. -/
structure Composed.Agrees (c c' : Composed) (clause : WhereClause) (baseParams : List Value) :
    Prop where
  countAlias : c.countAlias = c'.countAlias
  countPosition : c.countPosition = c'.countPosition
  sameLength : c.params.length = c'.params.length
  /-- A parameter belongs to the base statement or to a condition. -/
  values : c.params = baseParams ++ clause.values .postgres ∧
    c'.params = baseParams ++ clause.values .sqlite
  params : ∀ i, (∀ b ∈ clause.binder? baseParams.length i, b.isSensiblePattern = false) →
    c.params[i]? = c'.params[i]?
  /-- The base and all that is inserted outside the predicate. -/
  outside : c.SameAround c' clause (baseParams.length + 1)
  /-- Without patterns there are only the signs of the placeholders to exchange. -/
  marks : (∀ group ∈ clause.groups, ∀ b ∈ group, b.comparison.isPattern = false) →
    c'.sql = c.exchanged

theorem WhereClause.length_values (d : Dialect) (clause : WhereClause) :
    (clause.values d).length = clause.binders.length := by
  rw [values, binders, List.length_flatMap, List.length_flatMap]
  simp only [Condition.length_params_render, List.length_replicate]

/-- The parameters of a clause in both dialects, behind those of a base statement. -/
theorem WhereClause.getElem?_dialects {clause : WhereClause} {baseParams : List Value} {i : Nat}
    (h : ∀ b ∈ clause.binder? baseParams.length i, b.isSensiblePattern = false) :
    (baseParams ++ clause.values .postgres)[i]? = (baseParams ++ clause.values .sqlite)[i]? := by
  by_cases hi : baseParams.length ≤ i
  · rw [List.getElem?_append_right hi, List.getElem?_append_right hi]
    apply Condition.getElem?_dialects
    rwa [binder?, if_pos hi] at h
  · rw [List.getElem?_append_left (by omega), List.getElem?_append_left (by omega)]

section

variable {dialect : Dialect} {countAlias base : String} {baseParams : List Value}
  {clause : WhereClause} {order : OrderBy} {limit : Limit} {c c' : Composed}

/-- Without conditions a statement is the same in all dialects, and without placeholders. -/
theorem compose_empty (hempty : clause.isEmpty = true)
    (halias : Identifier.isPlain countAlias = true)
    (horder : ∀ column ∈ order.columns, Identifier.isQualified column = true)
    (hc : compose dialect countAlias base baseParams clause order limit = .ok c) :
    c.pieces.map Piece.exchange = c.pieces ∧ ∀ d c',
      compose d countAlias base baseParams clause order limit = .ok c' → c'.pieces = c.pieces := by
  have hnone : ∀ (site : Site) predicate, site.predicateEdits clause predicate = [] := by
    intro site predicate
    rw [Site.predicateEdits, hempty, if_pos rfl]
  obtain ⟨site, ps, hsite, -, hsplice, hpieces, -⟩ := compose_ok hc
  rw [hnone, List.cons_append, List.nil_append] at hsplice
  constructor
  · apply Piece.map_exchange
    intro t ht
    rw [hpieces, List.filterMap_append] at ht
    rcases List.mem_append.1 ht with ht | ht
    · obtain ⟨e, he, rfl⟩ := Edit.exists_of_splice? hsplice ht
      rcases List.mem_cons.1 he with rfl | he
      · exact site.unmarked_countEdit halias
      · exact site.unmarked_orderEdits horder e he
    · exact limit.unmarked_tail t ht
  · intro d c' hc'
    obtain ⟨site', ps', hsite', -, hsplice', hpieces', -⟩ := compose_ok hc'
    obtain rfl : site = site' := Except.ok.inj (hsite.symm.trans hsite')
    rw [hnone, List.cons_append, List.nil_append] at hsplice'
    obtain rfl : ps = ps' := Option.some.inj (hsplice.symm.trans hsplice')
    rw [hpieces, hpieces']

/-- A clause is put into the same gap of a base statement in all dialects. -/
theorem compose_slot (hempty : clause.isEmpty = false)
    (halias : Identifier.isPlain countAlias = true)
    (horder : ∀ column ∈ order.columns, Identifier.isQualified column = true)
    (hc : compose dialect countAlias base baseParams clause order limit = .ok c) :
    ∃ slot : Slot, slot.IsUnmarked ∧ ∀ d c',
      compose d countAlias base baseParams clause order limit = .ok c' →
        c'.pieces = slot.fill (clause.render d (baseParams.length + 1)).sql := by
  obtain ⟨site, ps, hsite, -, hsplice, -⟩ := compose_ok hc
  obtain ⟨slot, hslot, hfill⟩ := site.exists_slot hempty halias horder hsplice
  refine ⟨{ slot with after := slot.after ++ limit.tail }, { hslot with after := ?_ }, ?_⟩
  · intro t ht
    rw [List.filterMap_append] at ht
    exact (List.mem_append.1 ht).elim (hslot.after t) (limit.unmarked_tail t)
  · intro d c' hc'
    obtain ⟨site', ps', hsite', -, hsplice', hpieces', -⟩ := compose_ok hc'
    obtain rfl : site = site' := Except.ok.inj (hsite.symm.trans hsite')
    rw [hfill] at hsplice'
    rw [hpieces', ← Option.some.inj hsplice', Slot.fill, List.append_assoc]
    rfl

/-- The pieces of a statement in both dialects. -/
theorem compose_pieces (halias : Identifier.isPlain countAlias = true)
    (hclause : ∀ group ∈ clause.groups, ∀ b ∈ group, Identifier.isQualified b.column = true)
    (horder : ∀ column ∈ order.columns, Identifier.isQualified column = true)
    (hc : compose .postgres countAlias base baseParams clause order limit = .ok c)
    (hc' : compose .sqlite countAlias base baseParams clause order limit = .ok c') :
    c.SameAround c' clause (baseParams.length + 1) ∧
      ((∀ group ∈ clause.groups, ∀ b ∈ group, b.comparison.isPattern = false) →
        c.pieces.map Piece.exchange = c'.pieces) := by
  cases hempty : clause.isEmpty with
  | true =>
    obtain ⟨hexchange, hsame⟩ := compose_empty hempty halias horder hc
    have hpieces : c.pieces = c'.pieces := (hsame .sqlite c' hc').symm
    exact ⟨.inl ⟨hempty, hpieces⟩, fun _ => hexchange.trans hpieces⟩
  | false =>
    obtain ⟨slot, hslot, hfill⟩ := compose_slot hempty halias horder hc
    have hpieces := hfill .postgres c hc
    have hpieces' := hfill .sqlite c' hc'
    refine ⟨.inr ⟨slot, hpieces, hpieces'⟩, fun hpattern => ?_⟩
    have hpredicate := WhereClause.exchanges_render (fun group hgroup b hb =>
      ⟨hclause group hgroup b hb, hpattern group hgroup b hb⟩) (baseParams.length + 1)
    rw [hpieces, hpieces', hslot.map_exchange hpredicate.sql]

/-- A clause is put into the same place of a base statement in both dialects. -/
theorem compose_dialects (halias : Identifier.isPlain countAlias = true)
    (hclause : ∀ group ∈ clause.groups, ∀ b ∈ group, Identifier.isQualified b.column = true)
    (horder : ∀ column ∈ order.columns, Identifier.isQualified column = true)
    (hc : compose .postgres countAlias base baseParams clause order limit = .ok c)
    (hc' : compose .sqlite countAlias base baseParams clause order limit = .ok c') :
    c.Agrees c' clause baseParams := by
  obtain ⟨site, -, hsite, -, -, -, hparams, hcountAlias, hposition⟩ := compose_ok hc
  obtain ⟨site', -, hsite', -, -, -, hparams', hcountAlias', hposition'⟩ := compose_ok hc'
  obtain rfl : site = site' := Except.ok.inj (hsite.symm.trans hsite')
  obtain ⟨houtside, hmarks⟩ := compose_pieces halias hclause horder hc hc'
  rw [clause.params_render] at hparams hparams'
  refine ⟨hcountAlias.trans hcountAlias'.symm, hposition.trans hposition'.symm, ?_,
    ⟨hparams, hparams'⟩, ?_, houtside, ?_⟩
  · rw [hparams, hparams', List.length_append, List.length_append, clause.length_values,
      clause.length_values]
  · intro i hi
    rw [hparams, hparams']
    exact WhereClause.getElem?_dialects hi
  · intro hpattern
    rw [Composed.sql, Composed.exchanged, ← hmarks hpattern, List.map_map]
    rfl

end

/-- **Both dialects prepare a request alike.** They fail with one error, or understand the request
in one way and make statements for one clause that agree but in their placeholders and patterns. -/
theorem Model.prepare_dialects (config : Config) (base : String) (baseParams : List Value)
    (request : Request) :
    let run (d : Dialect) := Model.prepare ⟨d, config, base, baseParams⟩ request
    (∃ e, run .postgres = .error e ∧ run .sqlite = .error e) ∨
      ∃ p p' clause, run .postgres = .ok p ∧ run .sqlite = .ok p' ∧
        p.filters = p'.filters ∧ p.sorts = p'.sorts ∧ p.pagination = p'.pagination ∧
        p.filters.whereClause config = .ok clause ∧ p.query.Agrees p'.query clause baseParams := by
  intro run
  have hfailure (d : Dialect) := error?_prepare ⟨d, config, base, baseParams⟩ request
  have hsame : error? (run .postgres) = error? (run .sqlite) :=
    (hfailure .postgres).trans (hfailure .sqlite).symm
  cases hp : run .postgres with
  | error e =>
    rw [hp] at hsame
    exact .inl ⟨e, rfl, error?_eq_some.1 hsame.symm⟩
  | ok p =>
    rw [hp] at hsame
    obtain ⟨p', hp'⟩ := error?_eq_none.1 hsame.symm
    obtain ⟨hfilters, hsorts, hpagination, clause, hclause, hcompose⟩ := prepare_ok hp
    obtain ⟨hfilters', hsorts', hpagination', clause', hclause', hcompose'⟩ := prepare_ok hp'
    have hspec : p.filters = p'.filters := hfilters.trans hfilters'.symm
    have hsort : p.sorts = p'.sorts := hsorts.trans hsorts'.symm
    have hpage : p.pagination = p'.pagination := hpagination.trans hpagination'.symm
    obtain rfl : clause = clause' := by
      rw [hspec] at hclause
      exact Except.ok.inj (hclause.symm.trans hclause')
    rw [← hsort, ← hpage] at hcompose'
    refine .inr ⟨p, p', clause, rfl, hp', hspec, hsort, hpage, hclause,
      compose_dialects config.sound.plain_countAlias (fun group hgroup b hb => ?_)
        (fun column hcolumn => ?_) hcompose hcompose'⟩
    · rw [hfilters] at hclause
      exact (FilterSpec.clause_sound hclause group hgroup b hb).1
    · rw [hsorts] at hcolumn
      exact (SortSpec.vetted_columns hcolumn).1

end Listing
