import Listing.Proofs.PredicateText
import Listing.Proofs.Recomposition

/-!
# Around a predicate

Where the predicate of a composed statement stands. The statement is a front, the word WHERE, the
predicate and a rest (`Site.Layout`): WHERE is new or the one of the base, and sort columns are in
the front only if the base has its ORDER BY or its limit in front of its WHERE (`Site.SortsFirst`).

WHERE is found by the words in front of it unless a name there is taken for it, or one behind it for
the FROM that the base has not (`Site.Unmistaken`). The predicate ends where the rest begins.
-/

namespace Listing

open Text

/-- What ends with a parenthesis ends with code. -/
theorem Enclosed.finished {u : List UInt8} (h : Enclosed u) : Finished u := by
  obtain ⟨v, rfl⟩ := List.getLast?_eq_some_iff.1 h.last
  have hsplits : Reader.Splits v [Ascii.closeParen] := Reader.splits_of_head (by decide)
  have hclosed := h.neutral.closed
  have hmode : (({} : Reader).after v).mode = .code := by
    rw [Reader.after_append hsplits] at hclosed
    exact Reader.mode_of_closeParen (congrArg Reader.mode hclosed)
  have hlast : lexemes [Ascii.closeParen] = [⟨.closing, [Ascii.closeParen]⟩] := by cbv
  refine ⟨hclosed, ?_⟩
  have hposition := foldl_pass_position {} (lexemes v)
  rw [lexemes_flatten] at hposition
  rw [Outline.of, lexemes_append hmode (Seam.of_head (by decide)).apart, List.foldl_append, hlast]
  simp only [List.foldl_cons, List.foldl_nil, Scan.pass, Scan.isCode, ↓reduceIte, hposition,
    List.length_append, Nat.zero_add]

/-- Blanks in front of it make no difference. -/
theorem Enclosed.behind_blanks {u blanks : List UInt8} (h : Enclosed u)
    (hblanks : ∀ b ∈ blanks, Lexeme.isBlankByte b = true) :
    IsPredicate (blanks ++ u) ∧ topWords (blanks ++ u) = topWords u := by
  have hclosed : ({} : Reader).after blanks = {} :=
    Reader.after_of_isPlain (isPlain_blanks hblanks)
  have hseam : Seam blanks u := .of_head (by rw [h.head]; decide)
  refine ⟨⟨.append hclosed hseam h.ne_nil h.finished,
    List.append_ne_nil_of_right_ne_nil blanks h.ne_nil, fun b hb => ?_, fun b hb => ?_⟩, ?_⟩
  · cases blanks with
    | nil =>
      rw [List.nil_append, h.head] at hb
      obtain rfl := Option.some.inj hb
      rfl
    | cons c blanks =>
      obtain rfl : c = b := Option.some.inj hb
      rcases eq_of_isBlankByte (hblanks c List.mem_cons_self) with rfl | rfl | rfl | rfl | rfl <;>
        rfl
  · rw [List.getLast?_append, h.last, Option.some_or] at hb
    obtain rfl := Option.some.inj hb
    rfl
  · rw [topWords_append hclosed hseam, topWords_blanks hblanks, List.nil_append]

/-- What stands behind WHERE and the blanks behind it: a predicate by itself, or joined to a body
with the tokens of another one in parentheses. -/
inductive Conjoins (d : Dialect) (own : List CodeToken) (clause : WhereClause)
    (predicate : String) : List UInt8 → Prop
  | alone (hown : own = []) : Conjoins d own clause predicate (bytes predicate)
  | joined {body : List UInt8} (hbody : Reader.Neutral body) (hown : codeTokens d body = own)
      (hne : own ≠ []) :
      Conjoins d own clause predicate ((Ascii.openParen :: body ++ [Ascii.closeParen]) ++
        (bytes " AND " ++
          bytes (if 1 < clause.groups.length then "(" ++ predicate ++ ")" else predicate)))

namespace Conjoins

variable {d : Dialect} {own : List CodeToken} {clause : WhereClause} {predicate : String}
  {u : List UInt8} (h : Conjoins d own clause predicate u)

include h

theorem enclosed (hpredicate : Enclosed (bytes predicate)) : Enclosed u := by
  cases h with
  | alone => exact hpredicate
  | @joined body hbody =>
    have hand : Addable (bytes " AND ") := by decide
    have hfirst : Enclosed (Ascii.openParen :: body ++ [Ascii.closeParen]) :=
      ⟨hbody.parens, rfl, by rw [List.getLast?_append]; rfl⟩
    refine hfirst.join hand.neutral hand.fit ?_
    split
    · exact enclosed_parens hpredicate.neutral
    · exact hpredicate

/-- Nothing of it but connectives stands at the top level. -/
theorem topWords_connective (hpredicate : Enclosed (bytes predicate))
    (hwords : ∀ t ∈ topWords (bytes predicate), t = bytes clause.connective.keyword) :
    ∀ t ∈ topWords u, ∃ c : Connective, t = bytes c.keyword := by
  have hall : ∀ t ∈ topWords (bytes predicate), ∃ c : Connective, t = bytes c.keyword :=
    fun t ht => ⟨clause.connective, hwords t ht⟩
  cases h with
  | alone => exact hall
  | @joined body hbody =>
    have hnil : IsPlain [] := by simp [IsPlain]
    have hwrapped := topWords_wrapped hnil hbody
      (bytes (if 1 < clause.groups.length then "(" ++ predicate ++ ")" else predicate))
    rw [List.nil_append, topWords_nil, List.nil_append] at hwrapped
    intro t ht
    rw [hwrapped, List.singleton_append, List.mem_cons] at ht
    rcases ht with rfl | ht
    · exact ⟨.and, rfl⟩
    split at ht
    · rw [bytes_parens, topWords_parens hpredicate.neutral] at ht
      cases ht
    · exact hall t ht

end Conjoins

namespace Site

open Outline Edit

variable {countAlias : String} {text : List UInt8} {site : Site} {clause : WhereClause}
  {predicate : String} {order : OrderBy} {limit : Limit} {a b : Nat}

/-! ## Sort columns in a stretch -/

theorem sound_orderEdits (hbalanced : Balanced text) (h : locate countAlias text = .ok site)
    (horder : ∀ c ∈ order.columns, Identifier.isQualified c = true) (ha : Cut text a 0)
    (hb : Cut text b 0) (hle : a ≤ b) : Sound text a b 0 (site.orderEdits order) :=
  ⟨hbalanced, ha, hb, hle, fun _ he => (fits_orderEdits hbalanced h he).cut,
    .of_neutral (fun e he => by
      have hadd := addable_orderEdits horder e he
      exact ⟨hadd.fit, hadd.neutral⟩) 0⟩

/-- Sort columns in a stretch leave the reader where it was. -/
theorem after_orderEdits (hbalanced : Balanced text) (h : locate countAlias text = .ok site)
    (horder : ∀ c ∈ order.columns, Identifier.isQualified c = true) (ha : Cut text a 0)
    (hb : Cut text b 0) (hle : a ≤ b)
    (hes : ∀ e ∈ site.orderEdits order, a ≤ e.position ∧ e.position ≤ b) :
    ({} : Reader).after (weave (text.take b) a (site.orderEdits order)) = {} := by
  refine (sound_orderEdits hbalanced h horder ha hb hle).after_weave ?_ hes
  have hlength := orderEdits_length site order
  generalize site.orderEdits order = es at hlength
  match es, hlength with
  | [], _ => exact .nil
  | [e], _ => exact List.pairwise_singleton _ _

/-- The words of a stretch with sort columns in it. The last word of new ones may become one with a
keyword that limits the rows. -/
theorem topWords_orderEdits (hbalanced : Balanced text) (h : locate countAlias text = .ok site)
    (horder : ∀ c ∈ order.columns, Identifier.isQualified c = true)
    (hempty : order.isEmpty = false) (ha : Joint text a) (hb : Joint text b)
    (hes : ∀ e ∈ site.orderEdits order, a ≤ e.position ∧ e.position ≤ b) :
    ∃ front last m, SortStretch (bytes order.render) front last ∧
      (∀ t ∈ topWords front, t ∈ sortWords ∨ t ∈ order.leading) ∧
      Joint text m ∧ a ≤ m ∧ m ≤ b ∧
      (topWords (weave (text.take b) a (site.orderEdits order)) =
          textsBetween text a m ++ (topWords front ++ last :: textsBetween text m b) ∨
        topWords (weave (text.take b) a (site.orderEdits order)) =
            textsBetween text a m ++ (bytes "ORDER" :: bytes "BY" ::
              (topWords front ++ topWords (last ++ (text.take b).drop m))) ∧
          ∀ t ∈ (textsBetween text m b).head?, ∃ k ∈ Keyword.paging,
            spelled t k.opening = true) := by
  obtain ⟨front, last, hs, hfront, -⟩ := OrderBy.sortStretch hempty horder
  have hparted {m : Nat} {t : String} (hedits : site.orderEdits order = [⟨m, t⟩]) :
      ∀ e ∈ site.orderEdits order, m ≤ e.position ∧ e.Parted := by
    intro e he
    refine ⟨?_, parted_orderEdits e he⟩
    rw [hedits, List.mem_singleton] at he
    exact Nat.le_of_eq (congrArg Edit.position he).symm
  rcases orderEdits_cases h hempty with ⟨-, hedits⟩ | ⟨present, hpresent, -, hedits⟩
  · obtain ⟨ham, hmb⟩ := hes _ (by rw [hedits]; exact List.mem_cons_self)
    have hm := joint_clauseEnd hbalanced Keyword.paging site.scope
    refine ⟨front, last, _, hs, hfront, hm, ham, hmb, .inr ⟨?_, ?_⟩⟩
    · rw [topWords_weave_split ha hm ham hmb (hparted hedits), hedits, weave_self, bytes_append,
        List.append_assoc, weave, hs.topWords_new]
    · exact head?_textsBetween_clauseEnd _ _ _
  · obtain ⟨ham, hmb⟩ := hes _ (by rw [hedits]; exact List.mem_cons_self)
    obtain ⟨w, -, v, hv, hpresentEq, -, -⟩ := place_words hpresent
    have hm : Joint text present.stop := by
      rw [hpresentEq]
      exact joint_stop hv
    refine ⟨front, last, _, hs, hfront, hm, ham, hmb, .inl ?_⟩
    rw [topWords_weave_split ha hm ham hmb (hparted hedits), hedits, weave_self, bytes_append,
      bytes_append, List.append_assoc, List.append_assoc, weave, hs.topWords_more,
      topWords_stretch hm hb hmb]

/-- A name that sort columns do not bring except as the name of a column. -/
structure Unsorted (name : String) : Prop where
  fixed : ∀ t ∈ bytes "ORDER" :: bytes "BY" :: sortWords, spelled t name = false
  merged : ∀ last ∈ sortEnds, ∀ k ∈ Keyword.paging,
    spelled (last ++ bytes k.opening) name = false

/-- Such a name is among the words of a stretch with sort columns only if it is among those of the
stretch or names a column. -/
theorem not_spelled_orderEdits {name : String} (hname : Unsorted name)
    (hbalanced : Balanced text) (h : locate countAlias text = .ok site)
    (horder : ∀ c ∈ order.columns, Identifier.isQualified c = true) (ha : Joint text a)
    (hb : Joint text b) (hle : a ≤ b)
    (hes : ∀ e ∈ site.orderEdits order, a ≤ e.position ∧ e.position ≤ b)
    (hbase : ∀ t ∈ textsBetween text a b, spelled t name = false)
    (hleading : ∀ t ∈ order.leading, spelled t name = false) :
    ∀ t ∈ topWords (weave (text.take b) a (site.orderEdits order)), spelled t name = false := by
  cases hempty : order.isEmpty with
  | true =>
    rw [orderEdits, hempty, if_pos rfl]
    rw [← topWords_stretch ha hb hle] at hbase
    exact hbase
  | false =>
    obtain ⟨front, last, m, hs, hwords, hm, ham, hmb, hcases⟩ :=
      topWords_orderEdits hbalanced h horder hempty ha hb hes
    rw [textsBetween_append hm ham hmb, List.forall_mem_append] at hbase
    obtain ⟨hbefore, hbehind⟩ := hbase
    have hfront : ∀ t ∈ topWords front, spelled t name = false := by
      intro t ht
      rcases hwords t ht with ht | ht
      · exact hname.fixed t (by simp [ht])
      · exact hleading t ht
    have hlast : spelled last name = false := hname.fixed last (by simp [sortWords, hs.last])
    rcases hcases with heq | ⟨heq, hhead⟩
    · rw [heq, List.forall_mem_append, List.forall_mem_append, List.forall_mem_cons]
      exact ⟨hbefore, hfront, hlast, hbehind⟩
    · have hmerged : ∀ t ∈ topWords (last ++ (text.take b).drop m), spelled t name = false := by
        rw [← topWords_stretch hm hb hmb] at hbehind hhead
        rcases topWords_word_append hs.isWord ((text.take b).drop m) with
          hone | ⟨t, ts, htail, hone⟩
        · rw [hone, List.forall_mem_cons]
          exact ⟨hlast, hbehind⟩
        · rw [htail] at hbehind hhead
          obtain ⟨k, hk, hspells⟩ := hhead t rfl
          rw [hone, List.forall_mem_cons]
          exact ⟨spelled_sortEnd_append hname.merged hs.last hk hspells,
            (List.forall_mem_cons.1 hbehind).2⟩
      rw [heq, List.forall_mem_append, List.forall_mem_cons, List.forall_mem_cons,
        List.forall_mem_append]
      exact ⟨hbefore, hname.fixed _ (by simp), hname.fixed _ (by simp), hfront, hmerged⟩

/-! ## Where the predicate goes -/

/-- Sort columns go in front of the WHERE of the base statement. -/
def SortsFirst (site : Site) (order : OrderBy) : Prop :=
  ∃ present ∈ site.outline.first? .where site.scope,
    ∃ e ∈ site.orderEdits order, e.position < present.stop

instance (site : Site) (order : OrderBy) : Decidable (site.SortsFirst order) :=
  inferInstanceAs (Decidable (∃ present ∈ site.outline.first? .where site.scope,
    ∃ e ∈ site.orderEdits order, e.position < present.stop))

/-- The sort columns in front of the predicate. -/
def former (site : Site) (order : OrderBy) : OrderBy :=
  if site.SortsFirst order then order else ⟨[]⟩

/-- The sort columns behind it. -/
def latter (site : Site) (order : OrderBy) : OrderBy :=
  if site.SortsFirst order then ⟨[]⟩ else order

theorem columns_former (site : Site) (order : OrderBy) :
    (site.former order).columns ⊆ order.columns := by
  unfold former
  split
  · exact List.Subset.refl _
  · exact List.nil_subset _

theorem columns_latter (site : Site) (order : OrderBy) :
    (site.latter order).columns ⊆ order.columns := by
  unfold latter
  split
  · exact List.nil_subset _
  · exact List.Subset.refl _

/-- Two positions of a base statement with all edits of a predicate between them: in front of WHERE,
and the end of the clause that begins at `a`. -/
structure Around (text : List UInt8) (site : Site) (order : OrderBy) (front a : Nat) : Prop where
  joint : Joint text front
  projection_le : site.projection ≤ front
  scope_le : site.scope ≤ front
  le : front ≤ clauseEnd text Keyword.afterWhere a
  noWhere : ∀ w ∈ (Outline.of text).words, site.scope ≤ w.start → w.stop ≤ front →
    w.spells "where" = false
  former : site.SortsFirst order → ∃ w ∈ (Outline.of text).words, w.spells "where" = true ∧
    front = w.before ∧ w.stop ≤ clauseEnd text Keyword.afterWhere a ∧
    ∀ e ∈ site.orderEdits order, e.position ≤ front
  latter : ¬site.SortsFirst order →
    ∀ e ∈ site.orderEdits order, clauseEnd text Keyword.afterWhere a ≤ e.position
  places : ∀ p ∈ places [.orderBy] site.scope (Outline.of text).words,
    clauseEnd text Keyword.afterWhere a ≤ p.stop →
      p ∈ places Keyword.afterWhere a (Outline.of text).words

theorem mem_places_afterWhere {ks : List Keyword} (hks : ∀ k ∈ ks, k ∈ Keyword.afterWhere)
    {ws : List Word} {p : Place} (h : p ∈ places ks a ws) : p ∈ places Keyword.afterWhere a ws := by
  obtain ⟨hle, k, hk, hoccurs⟩ := mem_places.1 h
  exact mem_places.2 ⟨hle, k, hks k hk, hoccurs⟩

/-- A new WHERE goes in front of the sort columns. -/
theorem around_new (hbalanced : Balanced text) (h : locate countAlias text = .ok site)
    (hnone : site.outline.first? .where site.scope = none) (order : OrderBy) :
    Around text site order (clauseEnd text Keyword.afterWhere site.scope) site.scope := by
  have hnot : ¬site.SortsFirst order := by
    rintro ⟨present, hpresent, -⟩
    rw [hnone] at hpresent
    cases hpresent
  obtain ⟨v, hv, hscope⟩ := exists_scope_word h
  have hpaging : ∀ k ∈ Keyword.paging, k ∈ Keyword.afterWhere := fun k => Keyword.mem_afterWhere
  have horder : ∀ k ∈ [Keyword.orderBy], k ∈ Keyword.afterWhere := by decide
  refine ⟨joint_clauseEnd hbalanced _ _, projection_le_clauseEnd h _ (Nat.le_refl _), ?_,
    Nat.le_refl _, fun w hw hle _ => ?_, fun hsorts => absurd hsorts hnot, fun _ e he => ?_,
    fun p hp _ => mem_places_afterWhere horder hp⟩
  · rw [hscope]
    exact le_clauseEnd hv _
  · rw [outline_eq h, first?, List.head?_eq_none_iff] at hnone
    refine Bool.eq_false_iff.2 fun hspells => ?_
    have hmem := mem_places_of_word (k := .where) rfl hw hle hspells
    rw [hnone] at hmem
    cases hmem
  · rcases orderEdits_position h he with heq | ⟨present, hpresent, heq⟩
    · rw [heq]
      unfold clauseEnd
      cases hp : (Outline.of text).earliest? Keyword.paging site.scope with
      | none => exact clauseEnd_le_codeEnd text _ _
      | some p => exact clauseEnd_le (mem_places_afterWhere hpaging (List.mem_of_head? hp))
    · have hend := clauseEnd_le (mem_places_afterWhere horder hpresent)
      have hbounds := place_bounds hpresent
      omega

/-- A predicate behind the WHERE of the base has the sort columns on one side. -/
theorem around_present (h : locate countAlias text = .ok site) {w : Word}
    (hw : w ∈ (Outline.of text).words)
    (hpresent : site.outline.first? .where site.scope = some ⟨w.start, w.stop, w.before⟩)
    (hspells : w.spells "where" = true) (hscope : site.scope ≤ w.start) (order : OrderBy) :
    Around text site order w.before w.stop := by
  have hwb := word_bounds hw
  have hend := le_clauseEnd hw Keyword.afterWhere
  obtain ⟨v, hv, hscopeEq⟩ := exists_scope_word h
  refine ⟨joint_before hw, projection_le_before h (where_words h hpresent).1 (Nat.le_refl _), ?_,
    by omega, fun u hu hle hstop => ?_, ?_, fun hnot e he => ?_, fun p hp hle => ?_⟩
  · rw [hscopeEq] at hscope ⊢
    exact stop_le_before hv hw hscope
  · rw [outline_eq h, first?] at hpresent
    refine Bool.eq_false_iff.2 fun hspells' => ?_
    have hmem := mem_places_of_word (k := .where) rfl hu hle hspells'
    have hfirst := before_le_of_head? (words_ordered text)
      (fun v hv => by have := word_bounds hv; omega) hpresent hmem
    have hub := word_bounds hu
    dsimp only at hfirst
    omega
  · rintro ⟨present, hpresent', e, he, hlt⟩
    rw [hpresent, Option.mem_some] at hpresent'
    subst hpresent'
    refine ⟨w, hw, hspells, rfl, hend, fun e' he' => ?_⟩
    have hsame : e' = e := by
      have hlength := orderEdits_length site order
      obtain ⟨o, horders⟩ := List.length_eq_one_iff.1
        (Nat.le_antisymm hlength (List.length_pos_of_mem he))
      rw [horders, List.mem_singleton] at he he'
      rw [he, he']
    rw [hsame]
    rcases orderEdits_outside h he hw hspells with hle | hle
    · exact hle
    · dsimp only at hlt
      omega
  · rcases orderEdits_outside h he hw hspells with hle | hle
    · exact absurd ⟨_, hpresent, e, he, by dsimp only; omega⟩ hnot
    · exact hle
  · rcases orderBy_outside hw hspells hp with hle' | hmem
    · omega
    · exact hmem

namespace Around

variable {front : Nat} (hr : Around text site order front a)

include hr

theorem front_le : front ≤ (Outline.of text).codeEnd :=
  Nat.le_trans hr.le (clauseEnd_le_codeEnd _ _ _)

theorem former_le : ∀ e ∈ site.orderEdits (site.former order), e.position ≤ front := by
  intro e he
  unfold Site.former at he
  split at he
  · rename_i hsorts
    obtain ⟨-, -, -, -, -, hall⟩ := hr.former hsorts
    exact hall e he
  · cases he

theorem le_latter : ∀ e ∈ site.orderEdits (site.latter order),
    clauseEnd text Keyword.afterWhere a ≤ e.position := by
  intro e he
  unfold Site.latter at he
  split at he
  · cases he
  · rename_i hnot
    exact hr.latter hnot e he

/-- The edits of a statement with a predicate in order. -/
theorem sort (h : locate countAlias text = .ok site)
    (hend : ∃ e ∈ site.predicateEdits clause predicate,
      e.position = clauseEnd text Keyword.afterWhere a) :
    Edit.sort (site.countEdit countAlias ::
        site.predicateEdits clause predicate ++ site.orderEdits order) =
      site.countEdit countAlias :: (site.orderEdits (site.former order) ++
        (site.predicateEdits clause predicate ++ site.orderEdits (site.latter order))) := by
  obtain ⟨es, hsort, -, hes⟩ := sort_edits h clause predicate order
  obtain ⟨e, he, hposition⟩ := hend
  have hnil : site.orderEdits ⟨[]⟩ = [] := rfl
  rw [hsort]
  by_cases hsorts : site.SortsFirst order
  · obtain ⟨w, hw, -, hfront, hstop, hall⟩ := hr.former hsorts
    have hwb := word_bounds hw
    rw [Site.former, Site.latter, if_pos hsorts, if_pos hsorts, hnil]
    rcases hes with ⟨heq, hback⟩ | ⟨heq, -⟩
    · cases horders : site.orderEdits order with
      | nil => rw [heq, horders, List.nil_append]
      | cons o os =>
        have ho : o ∈ site.orderEdits order := by simp [horders]
        have := hback o ho e he
        have := hall o ho
        omega
    · rw [heq, List.append_nil]
  · rw [Site.former, Site.latter, if_neg hsorts, if_neg hsorts, hnil, List.nil_append]
    rcases hes with ⟨heq, -⟩ | ⟨heq, hfront⟩
    · rw [heq]
    · cases horders : site.orderEdits order with
      | nil => rw [heq, horders, List.nil_append, List.append_nil]
      | cons o os =>
        have ho : o ∈ site.orderEdits order := by simp [horders]
        have := hfront o ho e he
        have := hr.latter hsorts o ho
        omega

end Around

/-! ## What stands there -/

/-- A text with WHERE as its only word, at its end, that may stand at a position of a statement. -/
structure Lead (text : List UInt8) (front : Nat) (lead : List UInt8) (x : Word) : Prop where
  words : (Outline.of lead).words = [x]
  isWhere : x.spells "where" = true
  stop : x.stop = lead.length
  apart : ∀ u, (∀ b ∈ u.getLast?, isSeparator b = true) ∨
    u.getLast? = (text.take front).getLast? → Seam u lead

/-- What a predicate is inserted with: WHERE, new or of the base, blanks behind it, and what they
are followed by. -/
structure Parts (d : Dialect) (text : List UInt8) (site : Site) (clause : WhereClause)
    (predicate : String) (front a : Nat) (lead blanks conjunction : List UInt8) : Prop where
  blank : ∀ b ∈ blanks, Lexeme.isBlankByte b = true
  conjoins : Conjoins d (predicateTokens d text) clause predicate conjunction
  within : ∀ e ∈ site.predicateEdits clause predicate, front ≤ e.position
  ends : ∃ e ∈ site.predicateEdits clause predicate,
    e.position = clauseEnd text Keyword.afterWhere a
  weave : ∀ es, (∀ e ∈ es, clauseEnd text Keyword.afterWhere a ≤ e.position) →
    weave (text.take (Outline.of text).codeEnd) front
        (site.predicateEdits clause predicate ++ es) =
      lead ++ (blanks ++ (conjunction ++ weave (text.take (Outline.of text).codeEnd)
        (clauseEnd text Keyword.afterWhere a) es))

theorem Lead.finished {front : Nat} {lead : List UInt8} {x : Word} (h : Lead text front lead x) :
    Finished lead := by
  have hx : x ∈ (Outline.of lead).words := by simp [h.words]
  have hstop := finished_stop hx
  rwa [h.stop, List.take_length] at hstop

theorem lead_new (text : List UInt8) (front : Nat) :
    Lead text front (bytes " WHERE") ⟨1, 6, 0, bytes "WHERE"⟩ := by
  have hwords : (Outline.of (bytes " WHERE")).words = [⟨1, 6, 0, bytes "WHERE"⟩] := by cbv
  exact ⟨hwords, by decide, rfl, fun u _ => .of_head (by decide)⟩

theorem lead_present {w : Word} (hw : w ∈ (Outline.of text).words)
    (hspells : w.spells "where" = true) :
    ∃ x, Lead text w.before ((text.take w.stop).drop w.before) x := by
  have hwb := word_bounds hw
  have hcodeEnd := codeEnd_le text
  have hjoint := joint_before hw
  obtain ⟨x, hx, hxw⟩ : ∃ x, (Outline.of ((text.take w.stop).drop w.before)).words = [x] ∧
      x.behind w.before (Outline.of (text.take w.before)).codeEnd = w := by
    have hone := wordsBetween_word hw
    rw [wordsBetween_eq hjoint (joint_stop hw) (by omega)] at hone
    exact List.map_eq_singleton_iff.1 hone
  refine ⟨x, hx, ?_, ?_, ?_⟩
  · rw [← hxw] at hspells
    exact hspells
  · have hsum : w.before + x.stop = w.stop := congrArg Word.stop hxw
    rw [List.length_drop, List.length_take]
    omega
  · rintro u (hsep | hlast)
    · exact .of_last hsep
    · exact hjoint.seam_between.congr_last hlast

section

variable {d : Dialect} {w : Word}

theorem predicateTokens_of_locate (h : locate countAlias text = .ok site) :
    predicateTokens d text = ((site.outline.first? .where site.scope).map fun present =>
      codeTokens d ((text.take (clauseEnd text Keyword.afterWhere present.stop)).drop
        present.stop)).getD [] := by
  rw [predicateTokens, predicateText?_of_locate h, Option.map_map]
  rfl

theorem parts_new (h : locate countAlias text = .ok site)
    (hnone : site.outline.first? .where site.scope = none)
    (hedits : site.predicateEdits clause predicate =
      [⟨clauseEnd text Keyword.afterWhere site.scope, " WHERE " ++ predicate⟩]) :
    Parts d text site clause predicate (clauseEnd text Keyword.afterWhere site.scope) site.scope
      (bytes " WHERE") (bytes " ") (bytes predicate) := by
  refine ⟨by decide, .alone ?_, fun e he => ?_,
    ⟨_, by rw [hedits]; exact List.mem_cons_self, rfl⟩, fun es _ => ?_⟩
  · rw [predicateTokens_of_locate h, hnone]
    rfl
  · rw [hedits, List.mem_singleton] at he
    rw [he]
  · have hbytes : bytes " WHERE " = bytes " WHERE" ++ bytes " " := rfl
    rw [hedits, List.singleton_append, weave_self, bytes_append, hbytes]
    simp only [List.append_assoc]

/-- The predicate that the base has behind its WHERE. -/
theorem predicateTokens_present (h : locate countAlias text = .ok site)
    (hpresent : site.outline.first? .where site.scope = some ⟨w.start, w.stop, w.before⟩) :
    predicateTokens d text =
      codeTokens d ((text.take (clauseEnd text Keyword.afterWhere w.stop)).drop w.stop) := by
  rw [predicateTokens_of_locate h, hpresent]
  rfl

/-- If it is none, the predicate goes behind the blanks. -/
theorem parts_first (hblanks : PlainBlanks text) (h : locate countAlias text = .ok site)
    (hw : w ∈ (Outline.of text).words)
    (hpresent : site.outline.first? .where site.scope = some ⟨w.start, w.stop, w.before⟩)
    (hle : clauseEnd text Keyword.afterWhere w.stop ≤ w.stop + blankRun (text.drop w.stop))
    (hedits : site.predicateEdits clause predicate =
      [⟨clauseEnd text Keyword.afterWhere w.stop, " " ++ predicate⟩]) :
    Parts d text site clause predicate w.before w.stop ((text.take w.stop).drop w.before)
      ((text.take (clauseEnd text Keyword.afterWhere w.stop)).drop w.stop ++ bytes " ")
      (bytes predicate) := by
  have hwb := word_bounds hw
  have hend := le_clauseEnd hw Keyword.afterWhere
  have hall : ∀ b ∈ (text.take (clauseEnd text Keyword.afterWhere w.stop)).drop w.stop,
      Lexeme.isBlankByte b = true := by
    intro b hb
    rw [List.drop_take, ← Nat.min_eq_left (show clauseEnd text Keyword.afterWhere w.stop - w.stop ≤
      blankRun (text.drop w.stop) by omega), ← List.take_take] at hb
    exact blank_of_blankRun (hblanks.drop (joint_stop hw)) b (List.mem_of_mem_take hb)
  refine ⟨?_, .alone ?_, fun e he => ?_,
    ⟨_, by rw [hedits]; exact List.mem_cons_self, rfl⟩, fun es hes => ?_⟩
  · rw [List.forall_mem_append]
    exact ⟨hall, by decide⟩
  · have htokens := codeTokens_blanks (d := d) hall []
    rw [List.append_nil, codeTokens_nil] at htokens
    rw [predicateTokens_present h hpresent, htokens]
  · rw [hedits, List.mem_singleton] at he
    subst he
    dsimp only
    omega
  · have hbehind : ∀ e ∈ site.predicateEdits clause predicate ++ es, w.stop ≤ e.position := by
      rw [hedits, List.singleton_append, List.forall_mem_cons]
      exact ⟨hend, fun e he => Nat.le_trans hend (hes e he)⟩
    rw [weave_split (by omega) hwb.2.2 hbehind, hedits, List.singleton_append, Edit.weave,
      List.take_take, Nat.min_eq_left (clauseEnd_le_codeEnd _ _ _), bytes_append]
    simp only [List.append_assoc]

/-- If there is one, it goes in parentheses behind the blanks. -/
theorem parts_next (hbalanced : Balanced text) (hblanks : PlainBlanks text)
    (h : locate countAlias text = .ok site) (hw : w ∈ (Outline.of text).words)
    (hpresent : site.outline.first? .where site.scope = some ⟨w.start, w.stop, w.before⟩)
    (hlt : w.stop + blankRun (text.drop w.stop) < clauseEnd text Keyword.afterWhere w.stop)
    (hedits : site.predicateEdits clause predicate =
      [⟨w.stop + blankRun (text.drop w.stop), "("⟩,
        ⟨clauseEnd text Keyword.afterWhere w.stop, ") AND " ++
          if 1 < clause.groups.length then "(" ++ predicate ++ ")" else predicate⟩]) :
    ∃ blanks conjunction, Parts d text site clause predicate w.before w.stop
      ((text.take w.stop).drop w.before) blanks conjunction := by
  have hwb := word_bounds hw
  have hend := le_clauseEnd hw Keyword.afterWhere
  have hjointStop := joint_stop hw
  have hjoint := joint_clauseEnd hbalanced Keyword.afterWhere w.stop
  have hlength := hjoint.cut.le
  have hrun := blank_of_blankRun (hblanks.drop hjointStop)
  have hstart := hjointStop.cut.advance (isPlain_of_blankRun (text.drop w.stop)) (by omega)
  have hbody := Cut.neutral_between hbalanced hstart hjoint.cut (Nat.le_of_lt hlt)
  have hstretch : (text.take (clauseEnd text Keyword.afterWhere w.stop)).drop w.stop =
      (text.drop w.stop).take (blankRun (text.drop w.stop)) ++
        (text.take (clauseEnd text Keyword.afterWhere w.stop)).drop
          (w.stop + blankRun (text.drop w.stop)) := by
    conv => lhs; rw [← List.take_append_drop (blankRun (text.drop w.stop))
      ((text.take (clauseEnd text Keyword.afterWhere w.stop)).drop w.stop)]
    rw [List.drop_drop, List.drop_take, List.take_take, Nat.min_eq_left (by omega)]
  refine ⟨_, _, hrun, .joined hbody ?_ ?_, fun e he => ?_,
    ⟨_, by rw [hedits]; exact List.mem_cons_of_mem _ List.mem_cons_self, rfl⟩, fun es hes => ?_⟩
  · rw [predicateTokens_present h hpresent, hstretch, codeTokens_blanks hrun]
  · rw [predicateTokens_present h hpresent]
    exact codeTokens_ne_nil hjointStop (by omega) hlength (finished_clauseEnd hbalanced _ _)
  · rw [hedits] at he
    simp only [List.mem_cons, List.not_mem_nil, or_false] at he
    rcases he with rfl | rfl <;> dsimp only <;> omega
  · have hbehind : ∀ e ∈ site.predicateEdits clause predicate ++ es, w.stop ≤ e.position := by
      rw [hedits, List.cons_append, List.singleton_append, List.forall_mem_cons,
        List.forall_mem_cons]
      exact ⟨Nat.le_add_right _ _, hend, fun e he => Nat.le_trans hend (hes e he)⟩
    rw [weave_split (by omega) hwb.2.2 hbehind, hedits, List.cons_append, List.singleton_append,
      weave_wrapped hlt]
    simp only [List.append_assoc]

/-- A predicate is inserted in one place. -/
theorem exists_parts (hbalanced : Balanced text) (hblanks : PlainBlanks text)
    (h : locate countAlias text = .ok site) (hclause : clause.isEmpty = false) (d : Dialect)
    (predicate : String) (order : OrderBy) :
    ∃ front a lead x blanks conjunction, Around text site order front a ∧ Lead text front lead x ∧
      Parts d text site clause predicate front a lead blanks conjunction := by
  rcases predicateEdits_cases h predicate hclause with
    ⟨hnone, -, hedits⟩ | ⟨w, hw, hpresent, hspells, hscope, hcases⟩
  · exact ⟨_, _, _, _, _, _, around_new hbalanced h hnone order, lead_new text _,
      parts_new h hnone hedits⟩
  · have haround := around_present h hw hpresent hspells hscope order
    obtain ⟨x, hlead⟩ := lead_present hw hspells
    rcases hcases with ⟨hlt, -, hedits⟩ | ⟨hle, -, hedits⟩
    · obtain ⟨blanks, conjunction, hparts⟩ :=
        parts_next hbalanced hblanks h hw hpresent hlt hedits
      exact ⟨_, _, _, _, _, _, haround, hlead, hparts⟩
    · exact ⟨_, _, _, _, _, _, haround, hlead, parts_first hblanks h hw hpresent hle hedits⟩

end

end Site

end Listing
