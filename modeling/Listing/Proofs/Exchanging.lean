import Listing.Proofs.Rendering
import Listing.Statement.Splice
import Mathlib

/-!
# Texts with the other dialect's placeholders

The placeholders of a text are exchanged by writing a question mark for each dollar sign in front of
a number (`Text.exchange`). `Exchanges s t` tells that `t` comes from `s` in this way and that
nothing put behind `s` could change that. It holds of the two renderings of a placeholder, it is
kept by joining texts, and so it holds of the two renderings of a clause that matches no pattern
(`WhereClause.exchanges_render`).
-/

namespace Listing

open Text

open List (Forall₂)

/-! ## Exchanging placeholders -/

/-- A text with the placeholders of SQLite instead of those of PostgreSQL. -/
def Text.exchange : List Char → List Char
  | [] => []
  | c :: cs => (if c = '$' ∧ cs.head?.any Char.isDigit then '?' else c) :: exchange cs

example : exchange "a = $12 AND b = '$'".toList = "a = ?12 AND b = '$'".toList := by decide

/-- A piece with its placeholders exchanged, if it was inserted. -/
def Piece.exchange : Piece → Piece
  | kept text => kept text
  | added text => added (String.ofList (Text.exchange text.toList))

/-- A text without the sign of a placeholder. -/
def Unmarked (s : String) : Prop := '$' ∉ s.toList

instance (s : String) : Decidable (Unmarked s) := inferInstanceAs (Decidable (¬_))

namespace Unmarked

variable {s t : String}

theorem append (hs : Unmarked s) (ht : Unmarked t) : Unmarked (s ++ t) := by
  intro hmem
  rw [String.toList_append, List.mem_append] at hmem
  exact hmem.elim hs ht

theorem intercalate {separator : String} {ss : List String} (hseparator : Unmarked separator)
    (hss : ∀ s ∈ ss, Unmarked s) : Unmarked (separator.intercalate ss) := by
  by_cases hne : ss = []
  · rw [hne, String.intercalate_nil]
    exact List.not_mem_nil
  · exact join_induction (P := Unmarked) hne hss fun s t hs ht => hs.append (hseparator.append ht)

theorem of_isQualified (h : Identifier.isQualified s = true) : Unmarked s :=
  Identifier.not_mem h (by decide)

theorem numeral (n : Nat) : Unmarked (toString n) := by
  intro hmem
  rw [Nat.toString_eq_ofList_toDigits, String.toList_ofList] at hmem
  have hdigit := Nat.isDigit_of_mem_toDigits (by decide) (by decide) hmem
  exact absurd hdigit (by decide)

theorem exchange_eq {cs : List Char} (h : '$' ∉ cs) : Text.exchange cs = cs := by
  induction cs with
  | nil => rfl
  | cons c cs ih =>
    have hne : c ≠ '$' := fun heq => h (heq ▸ List.mem_cons_self)
    rw [Text.exchange, if_neg (fun hc => hne hc.1), ih fun hmem => h (List.mem_cons_of_mem c hmem)]

/-- A piece without placeholders stays as it is. -/
theorem exchange_added (h : Unmarked s) : (Piece.added s).exchange = .added s := by
  rw [Piece.exchange, exchange_eq h, String.ofList_toList]

end Unmarked

/-- A dollar sign at the end of a text could become that of a placeholder. Without one, texts are
exchanged each on its own. -/
theorem Text.exchange_append {cs : List Char} (h : cs.getLast? ≠ some '$') (ds : List Char) :
    exchange (cs ++ ds) = exchange cs ++ exchange ds := by
  induction cs with
  | nil => rfl
  | cons c cs ih =>
    cases cs with
    | nil =>
      have hne : c ≠ '$' := by simpa using h
      simp [exchange, hne]
    | cons c' cs =>
      have hlast : (c' :: cs).getLast? ≠ some '$' := by simpa using h
      rw [List.cons_append, exchange, ih hlast, exchange, List.cons_append]
      rfl

/-- The text `t` is `s` with its placeholders exchanged, whatever comes behind. -/
structure Exchanges (s t : String) : Prop where
  eq : exchange s.toList = t.toList
  last : s.toList.getLast? ≠ some '$'

namespace Exchanges

variable {s s' t t' : String}

theorem of_unmarked (h : Unmarked s) : Exchanges s s where
  eq := Unmarked.exchange_eq h
  last := fun hlast => h (List.mem_of_getLast? hlast)

theorem append (h : Exchanges s t) (h' : Exchanges s' t') : Exchanges (s ++ s') (t ++ t') := by
  constructor
  · rw [String.toList_append, String.toList_append, exchange_append h.last, h.eq, h'.eq]
  · rw [String.toList_append, List.getLast?_append]
    intro hlast
    rcases Option.or_eq_some_iff.1 hlast with hlast | ⟨-, hlast⟩
    · exact h'.last hlast
    · exact h.last hlast

theorem intercalate {separator : String} {ss ts : List String} (hseparator : Unmarked separator)
    (h : Forall₂ Exchanges ss ts) :
    Exchanges (separator.intercalate ss) (separator.intercalate ts) := by
  induction h with
  | nil =>
    rw [String.intercalate_nil]
    exact of_unmarked (by decide)
  | @cons s t ss ts hhead htail ih =>
    cases htail with
    | nil => rwa [String.intercalate_singleton, String.intercalate_singleton]
    | cons _ _ =>
      rw [String.intercalate_cons_cons, String.intercalate_cons_cons]
      exact (hhead.append (of_unmarked hseparator)).append ih

theorem placeholder (n : Nat) :
    Exchanges (Dialect.postgres.placeholder n) (Dialect.sqlite.placeholder n) := by
  have hnumeral := Unmarked.numeral n
  obtain ⟨c, cs, hcs⟩ := List.exists_cons_of_ne_nil (Nat.toDigits_ne_nil (b := 10) (n := n))
  have hlist : (toString n).toList = c :: cs := by
    rw [Nat.toString_eq_ofList_toDigits, String.toList_ofList, hcs]
  have hdigit : c.isDigit = true := by
    refine Nat.isDigit_of_mem_toDigits (b := 10) (n := n) (by decide) (by decide) ?_
    rw [hcs]
    exact List.mem_cons_self
  have hpostgres : (Dialect.postgres.placeholder n).toList = '$' :: (toString n).toList := by
    rw [Dialect.placeholder, String.toList_append]
    rfl
  have hsqlite : (Dialect.sqlite.placeholder n).toList = '?' :: (toString n).toList := by
    rw [Dialect.placeholder, String.toList_append]
    rfl
  constructor
  · rw [hpostgres, hsqlite, exchange, Unmarked.exchange_eq hnumeral, hlist]
    simp [hdigit]
  · rw [hpostgres, hlist, List.getLast?_cons_cons, ← hlist]
    intro hlast
    exact hnumeral (List.mem_of_getLast? hlast)

end Exchanges

/-! ## Rendered clauses -/

/-- Fragments with as many values and with the placeholders of one dialect and of the other. -/
structure Fragment.Exchanges (f g : Fragment) : Prop where
  sql : Listing.Exchanges f.sql g.sql
  params : f.params.length = g.params.length

namespace Fragment

theorem exchanges_sequence {α : Type} {f g : Nat → α → Fragment} {as : List α}
    (h : ∀ n, ∀ a ∈ as, (f n a).Exchanges (g n a)) (n : Nat) :
    Forall₂ Exchanges (sequence f n as) (sequence g n as) := by
  induction as generalizing n with
  | nil => exact .nil
  | cons a as ih =>
    have hhead := h n a List.mem_cons_self
    rw [sequence, sequence, hhead.params]
    exact .cons hhead (ih (fun m b hb => h m b (List.mem_cons_of_mem a hb)) _)

theorem exchanges_join {fs gs : List Fragment} (h : Forall₂ Exchanges fs gs) {separator : String}
    (hseparator : Unmarked separator) : (join separator fs).Exchanges (join separator gs) := by
  constructor
  · refine .intercalate hseparator ?_
    rw [List.forall₂_map_left_iff, List.forall₂_map_right_iff]
    exact h.imp fun _ _ hfg => hfg.sql
  · induction h with
    | nil => rfl
    | cons hhead _ ih =>
      simp only [join, List.flatMap_cons, List.length_append, hhead.params] at ih ⊢
      rw [ih]

end Fragment

theorem Condition.exchanges_render {c : Condition}
    (hcolumn : Identifier.isQualified c.column = true)
    (hpattern : c.comparison.isPattern = false) (n : Nat) :
    (c.render .postgres n).Exchanges (c.render .sqlite n) := by
  have hfront : Exchanges c.column c.column := .of_unmarked (.of_isQualified hcolumn)
  by_cases hbetween : c.comparison = .between
  · obtain ⟨column, comparison, value, caseSensitive⟩ := c
    obtain rfl : comparison = .between := hbetween
    obtain ⟨hsql, hparams⟩ := render_between .postgres n column value caseSensitive
    obtain ⟨hsql', hparams'⟩ := render_between .sqlite n column value caseSensitive
    refine ⟨?_, hparams.trans hparams'.symm⟩
    rw [hsql, hsql']
    split
    · exact (((hfront.append (.of_unmarked (by decide))).append (.placeholder n)).append
        (.of_unmarked (by decide))).append (.placeholder (n + 1))
    · exact .of_unmarked ((Unmarked.append (by decide) (.numeral _)).append (by decide))
  · obtain ⟨hsql, hparams⟩ := render_single .postgres n hbetween
    obtain ⟨hsql', hparams'⟩ := render_single .sqlite n hbetween
    have hsign : Unmarked c.comparison.sign := by
      cases c.comparison <;> decide
    refine ⟨?_, hparams.trans hparams'.symm⟩
    rw [hsql, hsql', hpattern]
    exact (((hfront.append (.of_unmarked (by decide))).append (.of_unmarked hsign)).append
      (.of_unmarked (by decide))).append (.placeholder n)

/-- Without patterns the two renderings of a clause differ in the signs of their placeholders. -/
theorem WhereClause.exchanges_render {clause : WhereClause}
    (h : ∀ group ∈ clause.groups, ∀ c ∈ group, Identifier.isQualified c.column = true ∧
      c.comparison.isPattern = false) (n : Nat) :
    (clause.render .postgres n).Exchanges (clause.render .sqlite n) := by
  have hor : Unmarked " OR " := by decide
  have hconnective : Unmarked (" " ++ clause.connective.keyword ++ " ") := by
    cases clause.connective <;> decide
  refine Fragment.exchanges_join (Fragment.exchanges_sequence (fun m group hgroup => ?_) n)
    hconnective
  have hbody := Fragment.exchanges_join (Fragment.exchanges_sequence (fun k c hc =>
    Condition.exchanges_render (h group hgroup c hc).1 (h group hgroup c hc).2 k) m) hor
  exact ⟨((Exchanges.of_unmarked (by decide)).append hbody.sql).append (.of_unmarked (by decide)),
    hbody.params⟩

/-! ## Texts without placeholders -/

theorem SortField.unmarked_render {field : SortField}
    (h : Identifier.isQualified field.column = true) : Unmarked field.render := by
  have hdirection : Unmarked field.direction.keyword := by
    cases field.direction <;> decide
  have hnulls : Unmarked (if field.nullsLast then " NULLS LAST" else "") := by
    split <;> decide
  exact (((Unmarked.of_isQualified h).append (by decide)).append hdirection).append hnulls

theorem OrderBy.unmarked_render {order : OrderBy}
    (h : ∀ column ∈ order.columns, Identifier.isQualified column = true) :
    Unmarked order.render := by
  refine .intercalate (by decide) fun s hs => ?_
  obtain ⟨field, hfield, rfl⟩ := List.mem_map.1 hs
  exact SortField.unmarked_render (h field.column (List.mem_map_of_mem hfield))

theorem Limit.unmarked_render (limit : Limit) : Unmarked limit.render := by
  cases limit with
  | unbounded => decide
  | bounded limit offset =>
    exact ((Unmarked.append (by decide) (.numeral limit)).append (by decide)).append
      (.numeral offset)

end Listing
