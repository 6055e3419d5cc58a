import Listing.Proofs.Phrases
import Listing.Proofs.Splicing
import Listing.Proofs.Weaving

/-!
# Comments in a base statement are transparent

With a comment more in the base statement its site moves, and so do its edits
(`Remark.predicateEdits_cases`), with one exception: if the comment follows the blanks behind WHERE,
the parenthesis that is put in front of the predicate goes in front of the comment
(`Remark.Precedes`). Either way the edits in front of the comment are the same ones
(`Remark.sort_cases`), and the statements have the same tokens (`Remark.tokenLexemes_woven`).

`compose_commented`: a listing is composed as without the comment, or refused as without it.
-/

namespace Listing

open Text

/-! ## The edits of a site -/

namespace Site

open Outline

variable {countAlias predicate : String} {text : List UInt8} {site : Site} {clause : WhereClause}
  {order : OrderBy} {e : Edit}

/-- The edits of a site, in no order. -/
def edits (site : Site) (countAlias predicate : String) (clause : WhereClause) (order : OrderBy) :
    List Edit :=
  site.countEdit countAlias :: site.predicateEdits clause predicate ++ site.orderEdits order

/-- The code of a statement with the edits of its site in it, and with a limit. -/
def woven (site : Site) (countAlias predicate : String) (clause : WhereClause) (order : OrderBy)
    (limit : Limit) : List UInt8 :=
  Edit.weave (site.text.take site.outline.codeEnd) 0
    (Edit.sort (site.edits countAlias predicate clause order) ++ limit.edits site.outline.codeEnd)

theorem cut_clauseEnd_or (text : List UInt8) (ks : List Keyword) (position : Nat) :
    Cut text (clauseEnd text ks position) 0 ∨
      clauseEnd text ks position = (Outline.of text).codeEnd := by
  unfold clauseEnd
  cases hp : (Outline.of text).earliest? ks position with
  | none => exact .inr rfl
  | some p => exact .inl (cut_place (List.mem_of_head? hp)).1

/-- Only at the end of the code may an edit go to a place that is not in code, if the statement does
not close its quotes. -/
theorem cut_of_mem_edits (h : locate countAlias text = .ok site)
    (he : e ∈ site.edits countAlias predicate clause order) :
    (Cut text e.position 0 ∨ e.position = (Outline.of text).codeEnd) ∧
      e.position ≤ (Outline.of text).codeEnd := by
  rw [edits, List.cons_append, List.mem_cons, List.mem_append] at he
  rcases he with rfl | he | he
  · exact ⟨.inl (fits_count h).cut, (fits_count h).le_codeEnd⟩
  · rcases predicateEdits_position h he with ⟨x, -, -, hend⟩ | ⟨x, hx, -, hstart, hlt⟩
    · rw [hend]
      exact ⟨cut_clauseEnd_or text _ _, clauseEnd_le_codeEnd text _ _⟩
    · have hle := clauseEnd_le_codeEnd text Keyword.afterWhere x.stop
      have hlength := codeEnd_le text
      have hcut := (cut_stop hx).advance (isPlain_of_blankRun (text.drop x.stop)) (by omega)
      rw [hstart]
      exact ⟨.inl hcut, by omega⟩
  · rcases orderEdits_position h he with hend | ⟨present, hpresent, hstop⟩
    · rw [hend]
      exact ⟨cut_clauseEnd_or text _ _, clauseEnd_le_codeEnd text _ _⟩
    · rw [hstop]
      exact ⟨.inl (fits_place h hpresent).cut, (fits_place h hpresent).le_codeEnd⟩

theorem phrase_of_mem_edits (halias : EndsInCode (bytes countAlias))
    (hclause : clause.isEmpty = false → Phrase (bytes predicate))
    (horder : ∀ c ∈ order.columns, EndsInCode (bytes c))
    (he : e ∈ site.edits countAlias predicate clause order) : Phrase (bytes e.text) := by
  rw [edits, List.cons_append, List.mem_cons, List.mem_append] at he
  rcases he with rfl | he | he
  · exact phrase_countEdit halias
  · exact phrase_predicateEdits hclause e he
  · exact phrase_orderEdits horder e he

/-- A predicate that is there is put in parentheses. -/
theorem predicateEdits_of_where (predicate : String) {present : Place} {start stop : Nat}
    (hclause : clause.isEmpty = false)
    (hpresent : site.outline.first? .where site.scope = some present)
    (hstart : start = present.stop + blankRun (site.text.drop present.stop))
    (hstop : stop = site.predicateEnd present.stop) (hlt : start < stop) :
    site.predicateEdits clause predicate =
      [⟨start, "("⟩, ⟨stop, ") AND " ++
        if 1 < clause.groups.length then "(" ++ predicate ++ ")" else predicate⟩] := by
  subst hstart hstop
  rw [predicateEdits, hclause, if_neg Bool.false_ne_true]
  simp only [hpresent, if_pos hlt]

end Site

namespace Remark

open Outline

variable (r : Remark) {countAlias predicate : String} {site : Site} {clause : WhereClause}
  {order : OrderBy}

/-- The comment follows the blanks behind WHERE, and a predicate follows the comment. The
parenthesis in front of the predicate is then put in front of the comment. -/
structure Precedes (site : Site) (clause : WhereClause) (predicate : String) (x : Word)
    (start stop : Nat) (t : String) : Prop where
  mem : x ∈ (Outline.of r.bare).words
  first : site.outline.first? .where site.scope = some ⟨x.start, x.stop, x.before⟩
  spells : x.spells "where" = true
  front : x.stop < r.head.length
  le : r.head.length ≤ start
  start_eq : start = x.stop + blankRun (r.bare.drop x.stop)
  lt : start < stop
  stop_eq : stop = Site.clauseEnd r.bare Keyword.afterWhere x.stop
  edits : site.predicateEdits clause predicate = [⟨start, "("⟩, ⟨stop, t⟩]
  edits_commented : (site.move r.slide r.commented).predicateEdits clause predicate =
    [⟨r.head.length, "("⟩, ⟨r.slide stop, t⟩]

/-- The edits of the predicate move with the text, unless the comment precedes the predicate. -/
theorem predicateEdits_cases (hplain : PlainBlanks r.bare)
    (hsite : Site.locate countAlias r.bare = .ok site) :
    (site.move r.slide r.commented).predicateEdits clause predicate =
        (site.predicateEdits clause predicate).map (Edit.move r.slide) ∨
      ∃ x start stop t, r.Precedes site clause predicate x start stop t := by
  have hmono := r.strictMono_slide
  cases hclause : clause.isEmpty with
  | true =>
    left
    rw [Site.predicateEdits, Site.predicateEdits, hclause, if_pos rfl, if_pos rfl, List.map_nil]
  | false =>
    cases hpresent : site.outline.first? .where site.scope with
    | none =>
      left
      refine site.predicateEdits_move hmono clause predicate fun present hsome => ?_
      rw [hpresent] at hsome
      cases hsome
    | some present =>
      obtain ⟨-, x, hx, rfl, hspells, -⟩ := Site.where_words hsite hpresent
      have htext := Site.text_eq hsite
      have hend := Site.predicateEnd_eq hsite hx
      rcases r.start_cases hplain hx rfl rfl rfl with hmoves | ⟨hfront, hle, hlt, hstart⟩
      · left
        refine site.predicateEdits_move hmono clause predicate fun present hsome => ?_
        obtain rfl := Option.some.inj (hpresent.symm.trans hsome)
        simpa only [htext, hend] using hmoves
      · have hfirst : (site.move r.slide r.commented).outline.first? .where
            (site.move r.slide r.commented).scope =
              some (Place.move r.slide ⟨x.start, x.stop, x.before⟩) :=
          (site.outline.first?_move hmono .where site.scope).trans (by rw [hpresent]; rfl)
        have hend' : (site.move r.slide r.commented).predicateEnd (r.slide x.stop) =
            r.slide (Site.clauseEnd r.bare Keyword.afterWhere x.stop) := by
          rw [site.predicateEnd_move hmono, hend]
        have hlt' : r.head.length < r.slide (Site.clauseEnd r.bare Keyword.afterWhere x.stop) := by
          rw [slide, slide_of_le (by omega)]
          omega
        exact .inr ⟨x, _, _, _, hx, hpresent, hspells, hfront, hle, rfl, hlt, rfl,
          Site.predicateEdits_of_where predicate hclause hpresent (by rw [htext]) hend.symm hlt,
          Site.predicateEdits_of_where predicate hclause hfirst hstart.symm hend'.symm hlt'⟩

/-- A position with the comment in the text, if one position goes to the comment itself. -/
def draw (start position : Nat) : Nat :=
  if position = start then r.head.length else r.slide position

namespace Precedes

variable {r} {x : Word} {start stop : Nat} {t : String} {e : Edit}
  (h : r.Precedes site clause predicate x start stop t)
  (hsite : Site.locate countAlias r.bare = .ok site)

include h hsite

theorem projection_le : site.projection ≤ x.before :=
  Site.projection_le_before hsite (Site.where_words hsite h.first).1 (Nat.le_refl _)

theorem order_outside : ∀ o ∈ site.orderEdits order, o.position ≤ x.before ∨ stop ≤ o.position := by
  intro o ho
  rw [h.stop_eq]
  exact Site.orderEdits_outside hsite ho h.mem h.spells

/-- All edits but the parenthesis stand in front of WHERE or behind the predicate. -/
theorem outside (he : e ∈ site.edits countAlias predicate clause order) :
    e = ⟨start, "("⟩ ∨ e.position ≤ x.before ∨ stop ≤ e.position := by
  rw [Site.edits, h.edits] at he
  simp only [List.cons_append, List.nil_append, List.mem_cons] at he
  rcases he with rfl | rfl | rfl | he
  · exact .inr (.inl (h.projection_le hsite))
  · exact .inl rfl
  · exact .inr (.inr (Nat.le_refl _))
  · exact .inr (h.order_outside hsite e he)

omit hsite in
theorem bounds : x.before < r.head.length ∧ r.head.length ≤ start ∧ start < stop := by
  obtain ⟨hbefore, hword, -⟩ := word_bounds h.mem
  have hfront := h.front
  exact ⟨by omega, h.le, h.lt⟩

theorem stop_le_codeEnd : stop ≤ site.outline.codeEnd := by
  rw [h.stop_eq, Site.outline_eq hsite]
  exact Site.clauseEnd_le_codeEnd r.bare Keyword.afterWhere x.stop

omit hsite in
theorem draw_eq {p : Nat} (hp : p ≤ x.before ∨ stop ≤ p) : r.draw start p = r.slide p := by
  obtain ⟨hbefore, hle, hlt⟩ := h.bounds
  exact if_neg (by omega)

omit hsite in
/-- Drawn to the comment, the parenthesis stays between the edits that it stands between. -/
theorem draw_le {p q : Nat} (hp : p = start ∨ p ≤ x.before ∨ stop ≤ p)
    (hq : q = start ∨ q ≤ x.before ∨ stop ≤ q) : p ≤ q ↔ r.draw start p ≤ r.draw start q := by
  obtain ⟨hbefore, hle, hlt⟩ := h.bounds
  simp only [draw, slide, Listing.slide]
  grind

/-- The parenthesis is drawn to the comment, and all other edits move with the text. -/
theorem edits_move :
    (site.move r.slide r.commented).edits countAlias predicate clause order =
      (site.edits countAlias predicate clause order).map (Edit.move (r.draw start)) := by
  have hmove {e : Edit} (he : e.position ≤ x.before ∨ stop ≤ e.position) :
      e.move r.slide = e.move (r.draw start) := by
    rw [Edit.move, Edit.move, h.draw_eq he]
  have horder : (site.orderEdits order).map (Edit.move r.slide) =
      (site.orderEdits order).map (Edit.move (r.draw start)) :=
    List.map_congr_left fun o ho => hmove (h.order_outside hsite o ho)
  have hopen : (⟨r.head.length, "("⟩ : Edit) = Edit.move (r.draw start) ⟨start, "("⟩ := by
    rw [Edit.move, draw, if_pos rfl]
  have hclose : (⟨r.slide stop, t⟩ : Edit) = Edit.move (r.draw start) ⟨stop, t⟩ :=
    hmove (e := ⟨stop, t⟩) (.inr (Nat.le_refl _))
  simp only [Site.edits, h.edits, h.edits_commented, List.map_cons, List.map_append, List.map_nil]
  rw [Site.orderEdits_move r.strictMono_slide, Site.countEdit_move, horder, hopen, hclose,
    hmove (.inl (h.projection_le hsite))]

theorem sort_move :
    Edit.sort ((site.move r.slide r.commented).edits countAlias predicate clause order) =
      (Edit.sort (site.edits countAlias predicate clause order)).map
        (Edit.move (r.draw start)) := by
  have hposition : ∀ e ∈ site.edits countAlias predicate clause order,
      e.position = start ∨ e.position ≤ x.before ∨ stop ≤ e.position := by
    intro e he
    rcases h.outside hsite he with rfl | he
    · exact .inl rfl
    · exact .inr he
  rw [h.edits_move hsite]
  exact Edit.sort_map_move fun a ha b hb => h.draw_le (hposition a ha) (hposition b hb)

/-- In order, the parenthesis stands behind the edits in front of WHERE and before the others. -/
theorem exists_parts :
    ∃ A B, Edit.sort (site.edits countAlias predicate clause order) = A ++ ⟨start, "("⟩ :: B ∧
      (∀ e ∈ A, e.position ≤ x.before) ∧ ∀ e ∈ B, stop ≤ e.position := by
  obtain ⟨es, hes, -, hcases⟩ := Site.sort_edits hsite clause predicate order
  have hcount := h.projection_le hsite
  obtain ⟨hbefore, hhead, hlt⟩ := h.bounds
  have houtside : ∀ o ∈ site.orderEdits order, o.position ≤ x.before ∨ stop ≤ o.position :=
    h.order_outside hsite
  rw [h.edits] at hcases
  rcases hcases with ⟨rfl, hbehind⟩ | ⟨rfl, hfront⟩
  · refine ⟨[site.countEdit countAlias], ⟨stop, t⟩ :: site.orderEdits order, hes, ?_, ?_⟩
    · exact List.forall_mem_singleton.2 hcount
    · refine List.forall_mem_cons.2 ⟨Nat.le_refl _, fun o ho => ?_⟩
      have hle : start ≤ o.position := hbehind o ho ⟨start, "("⟩ List.mem_cons_self
      have hapart := houtside o ho
      omega
  · refine ⟨site.countEdit countAlias :: site.orderEdits order, [⟨stop, t⟩], hes, ?_, ?_⟩
    · refine List.forall_mem_cons.2 ⟨hcount, fun o ho => ?_⟩
      have hlt' : o.position < start := hfront o ho ⟨start, "("⟩ List.mem_cons_self
      have hapart := houtside o ho
      omega
    · exact List.forall_mem_singleton.2 (Nat.le_refl _)

/-- So in order the other edits stand around the parenthesis wherever it goes. -/
theorem sort_edits :
    ∃ A B, Edit.sort (site.edits countAlias predicate clause order) = A ++ ⟨start, "("⟩ :: B ∧
      Edit.sort ((site.move r.slide r.commented).edits countAlias predicate clause order) =
        A ++ ⟨r.head.length, "("⟩ :: B.map (Edit.move r.slide) ∧
      (∀ e ∈ A, e.position < r.head.length) ∧ ∀ e ∈ B, start ≤ e.position := by
  obtain ⟨A, B, hparts, hA, hB⟩ := h.exists_parts hsite
  obtain ⟨hbefore, -, hlt⟩ := h.bounds
  have hfront : ∀ e ∈ A, e.position < r.head.length :=
    fun e he => Nat.lt_of_le_of_lt (hA e he) hbefore
  have hfixed : A.map (Edit.move (r.draw start)) = A := by
    conv => rhs; rw [← Edit.map_slide_of_lt (k := r.gap.length) hfront]
    refine List.map_congr_left fun e he => ?_
    rw [Edit.move, Edit.move, h.draw_eq (.inl (hA e he)), slide]
  have hmoved : B.map (Edit.move (r.draw start)) = B.map (Edit.move r.slide) := by
    refine List.map_congr_left fun e he => ?_
    rw [Edit.move, Edit.move, h.draw_eq (.inr (hB e he))]
  refine ⟨A, B, hparts, ?_, hfront, fun e he => (Nat.le_of_lt hlt).trans (hB e he)⟩
  rw [h.sort_move hsite, hparts, List.map_append, List.map_cons, hfixed, hmoved, Edit.move, draw,
    if_pos rfl]

end Precedes

/-! ## The same tokens -/

/-- The edits behind the comment move with the text, those in front of it stay, and the parenthesis
in front of a predicate that the comment precedes goes to the comment. -/
theorem sort_cases (hplain : PlainBlanks r.bare)
    (hsite : Site.locate countAlias r.bare = .ok site) :
    Edit.sort ((site.move r.slide r.commented).edits countAlias predicate clause order) =
        (Edit.sort (site.edits countAlias predicate clause order)).map (Edit.move r.slide) ∨
      ∃ A B x start stop t, r.Precedes site clause predicate x start stop t ∧
        Edit.sort (site.edits countAlias predicate clause order) = A ++ ⟨start, "("⟩ :: B ∧
        Edit.sort ((site.move r.slide r.commented).edits countAlias predicate clause order) =
          A ++ ⟨r.head.length, "("⟩ :: B.map (Edit.move r.slide) ∧
        (∀ e ∈ A, e.position < r.head.length) ∧ ∀ e ∈ B, start ≤ e.position := by
  rcases r.predicateEdits_cases hplain hsite with hmoves | ⟨x, start, stop, t, hprecedes⟩
  · left
    rw [Site.edits, Site.countEdit_move, hmoves, Site.orderEdits_move r.strictMono_slide,
      ← List.map_cons, ← List.map_append]
    exact Edit.sort_map_move fun a _ b _ => r.strictMono_slide.le_iff_le.symm
  · obtain ⟨A, B, hsorts⟩ := hprecedes.sort_edits hsite
    exact .inr ⟨A, B, x, start, stop, t, hprecedes, hsorts⟩

/-- A cut of the text in front of the comment. -/
theorem cut_head {p : Nat} (h : Cut r.bare p 0) (hlt : p < r.head.length) : Cut r.head p 0 := by
  have htake : r.bare.take p = r.head.take p := List.take_append_of_le_length (Nat.le_of_lt hlt)
  have hdrop : r.bare.drop p = r.head.drop p ++ r.back :=
    List.drop_append_of_le_length (Nat.le_of_lt hlt)
  refine ⟨Nat.le_of_lt hlt, htake ▸ h.reads, fun a ha b hb => ?_⟩
  refine h.splits a (htake ▸ ha) b ?_
  rw [hdrop, List.head?_append, Option.mem_def.1 hb, Option.some_or]
  rfl

/-- The text up to the comment ends with a blank in code, also with edits in it. -/
theorem endsBlank_weave {A : List Edit} (hordered : A.Pairwise fun a b => a.position ≤ b.position)
    (hA : ∀ e ∈ A, e.position < r.head.length ∧ Cut r.bare e.position 0 ∧ Phrase (bytes e.text)) :
    EndsBlank (Edit.weave r.head 0 A) := by
  have hstart : Cut r.head 0 0 := ⟨Nat.zero_le _, rfl, Reader.splits_of_last (by simp)⟩
  refine ⟨Edit.endsInCode_weave r.endsInCode_head hstart hordered fun e he => ?_,
    r.blank, ?_, r.isBlank⟩
  · obtain ⟨hlt, hcut, hphrase⟩ := hA e he
    exact ⟨Nat.zero_le _, r.cut_head hcut hlt, hphrase⟩
  · have hparts : Edit.weave (r.front ++ [r.blank]) 0 (A ++ []) =
        Edit.weave r.front 0 A ++ Edit.weave (r.front ++ [r.blank]) r.front.length [] :=
      Edit.weave_parts (fun e he => by
        have hlt := (hA e he).1
        have hlength := r.length_head
        omega) (by simp)
    rw [List.append_nil, Edit.weave, List.drop_left] at hparts
    rw [head, hparts, List.getLast?_concat]
    rfl

/-- The blanks between the comment and the predicate behind it. -/
theorem Precedes.gap {x : Word} {start stop : Nat} {t : String}
    (h : r.Precedes site clause predicate x start stop t) (m : Nat) (hplain : PlainBlanks r.bare) :
    Gap (((r.bare.take m).take start).drop r.head.length) := by
  have hfront := h.front
  have hle := h.le
  have hstart := h.start_eq
  have hblanks := blank_of_blankRun (hplain.drop (joint_stop h.mem))
  refine .of_blanks fun b hb => hblanks b ?_
  rw [List.take_take, List.drop_take] at hb
  have hdrop : r.bare.drop r.head.length =
      (r.bare.drop x.stop).drop (r.head.length - x.stop) := by
    rw [List.drop_drop, Nat.add_sub_cancel' (Nat.le_of_lt hfront)]
  rw [hdrop, List.take_drop] at hb
  exact List.take_subset_take_left _ (by omega) (List.mem_of_mem_drop hb)

section

variable (hsite : Site.locate countAlias r.bare = .ok site) (limit : Limit)

include hsite

/-- A comment behind the code of a statement changes nothing. -/
theorem woven_of_lt (hplain : PlainBlanks r.bare) (hlt : site.outline.codeEnd < r.head.length) :
    (site.move r.slide r.commented).woven countAlias predicate clause order limit =
      site.woven countAlias predicate clause order limit := by
  have hend : (site.move r.slide r.commented).outline.codeEnd = site.outline.codeEnd :=
    slide_of_lt hlt
  have htake (t : List UInt8) : (r.head ++ t).take site.outline.codeEnd =
      r.head.take site.outline.codeEnd :=
    List.take_append_of_le_length (Nat.le_of_lt hlt)
  have htext : (site.move r.slide r.commented).text.take site.outline.codeEnd =
      site.text.take site.outline.codeEnd := by
    rw [Site.text_eq hsite]
    exact (htake _).trans (htake _).symm
  have hfixed : (Edit.sort (site.edits countAlias predicate clause order)).map
      (Edit.move r.slide) = Edit.sort (site.edits countAlias predicate clause order) := by
    refine Edit.map_slide_of_lt fun e he => ?_
    have hle := (Site.cut_of_mem_edits hsite (List.mem_mergeSort.1 he)).2
    rw [← Site.outline_eq hsite] at hle
    omega
  have hsort : Edit.sort ((site.move r.slide r.commented).edits countAlias predicate clause order) =
      Edit.sort (site.edits countAlias predicate clause order) := by
    rcases r.sort_cases hplain hsite with hmoves | ⟨A, B, x, start, stop, t, hprecedes, -⟩
    · rw [hmoves, hfixed]
    · -- the predicate would end in front of the comment
      obtain ⟨-, hhead, hstop⟩ := hprecedes.bounds
      have hle := hprecedes.stop_le_codeEnd hsite
      omega
  rw [Site.woven, Site.woven, hsort, hend, htext]

/-- The edits in front of the comment leave a blank in code in front of it. -/
theorem endsBlank_edits (hle : r.head.length ≤ site.outline.codeEnd)
    (hphrase : ∀ e ∈ site.edits countAlias predicate clause order, Phrase (bytes e.text))
    {A B : List Edit} (hparts : Edit.sort (site.edits countAlias predicate clause order) = A ++ B)
    (hA : ∀ e ∈ A, e.position < r.head.length) : EndsBlank (Edit.weave r.head 0 A) := by
  have hordered := Edit.pairwise_sort (site.edits countAlias predicate clause order)
  rw [hparts] at hordered
  refine r.endsBlank_weave (List.pairwise_append.1 hordered).1 fun e he => ?_
  have hmem : e ∈ site.edits countAlias predicate clause order := by
    refine List.mem_mergeSort.1 (?_ : e ∈ Edit.sort _)
    rw [hparts]
    exact List.mem_append_left B he
  have hlt := hA e he
  refine ⟨hlt, (Site.cut_of_mem_edits hsite hmem).1.resolve_right fun heq => ?_, hphrase e hmem⟩
  rw [← Site.outline_eq hsite] at heq
  omega

/-- The code of the statement reaches over the comment. -/
theorem exists_take (hle : r.head.length ≤ site.outline.codeEnd) :
    ∃ t, site.text.take site.outline.codeEnd = r.head ++ t ∧
      (site.move r.slide r.commented).text.take
        (site.move r.slide r.commented).outline.codeEnd = r.head ++ (r.gap ++ t) := by
  obtain ⟨m, hm⟩ := Nat.exists_eq_add_of_le hle
  have hcomm : r.head.length + m + r.gap.length = r.head.length + (r.gap.length + m) := by omega
  have hend : (site.move r.slide r.commented).outline.codeEnd =
      r.head.length + (r.gap.length + m) := by
    rw [← hcomm, ← hm]
    exact slide_of_le hle
  refine ⟨r.back.take m, ?_, ?_⟩
  · rw [Site.text_eq hsite, hm, bare, List.take_length_add_append]
  · rw [hend, Site.move, commented, List.take_length_add_append, List.take_length_add_append]

/-- With a comment more, the statement has the same tokens. -/
theorem tokenLexemes_woven (hplain : PlainBlanks r.bare)
    (hphrase : ∀ e ∈ site.edits countAlias predicate clause order, Phrase (bytes e.text)) :
    tokenLexemes ((site.move r.slide r.commented).woven countAlias predicate clause order limit) =
      tokenLexemes (site.woven countAlias predicate clause order limit) := by
  rcases Nat.lt_or_ge site.outline.codeEnd r.head.length with hlt | hle
  · rw [r.woven_of_lt hsite limit hplain hlt]
  obtain ⟨t, htake, htake'⟩ := r.exists_take hsite hle
  have hlimit : ∀ e ∈ limit.edits site.outline.codeEnd, site.outline.codeEnd ≤ e.position :=
    fun e he => Nat.le_of_eq (Limit.position_of_mem_edits he).symm
  have hmoved : limit.edits (site.move r.slide r.commented).outline.codeEnd =
      (limit.edits site.outline.codeEnd).map (Edit.move r.slide) :=
    limit.edits_move r.slide site.outline.codeEnd
  rw [Site.woven, Site.woven, htake, htake', hmoved]
  rcases r.sort_cases hplain hsite with
    hmoves | ⟨A, B, x, start, stop, _, hprecedes, hsort, hsort', hA, hB⟩
  · obtain ⟨A, B, hparts, hA, hB⟩ := Edit.exists_split
      (Edit.pairwise_sort (site.edits countAlias predicate clause order)) r.head.length
    have hback : ∀ e ∈ B ++ limit.edits site.outline.codeEnd, r.head.length ≤ e.position :=
      List.forall_mem_append.2 ⟨hB, fun e he => hle.trans (hlimit e he)⟩
    have hfixed : A.map (Edit.move r.slide) = A := Edit.map_slide_of_lt hA
    rw [hmoves, hparts, List.map_append, hfixed, List.append_assoc, List.append_assoc,
      ← List.map_append]
    exact Edit.tokenLexemes_weave_gap r.isGap (r.endsBlank_edits hsite hle hphrase hparts hA)
      (fun e he => Nat.le_of_lt (hA e he)) hback
  · have hstart : start ≤ site.outline.codeEnd :=
      (Nat.le_of_lt hprecedes.lt).trans (hprecedes.stop_le_codeEnd hsite)
    have hback : ∀ e ∈ B ++ limit.edits site.outline.codeEnd, start ≤ e.position :=
      List.forall_mem_append.2 ⟨hB, fun e he => hstart.trans (hlimit e he)⟩
    have hgap := hprecedes.gap r site.outline.codeEnd hplain
    rw [← Site.text_eq hsite, htake] at hgap
    rw [hsort, hsort', List.append_assoc, List.append_assoc, List.cons_append, List.cons_append,
      ← List.map_append]
    exact Edit.tokenLexemes_weave_openParen r.isGap
      (r.endsBlank_edits hsite hle hphrase hsort hA) (fun e he => Nat.le_of_lt (hA e he))
      hprecedes.le hback hgap

end

theorem locate_commented (countAlias : String) :
    Site.locate countAlias r.commented =
      (Site.locate countAlias r.bare).map (Site.move r.slide r.commented) := by
  have hhead := r.length_head
  exact Site.locate_move r.strictMono_slide countAlias (slide_of_lt (by omega)) r.outline_commented

end Remark

theorem woven_of_compose {dialect : Dialect} {countAlias base : String} {baseParams : List Value}
    {clause : WhereClause} {order : OrderBy} {limit : Limit} {c : Composed}
    (h : compose dialect countAlias base baseParams clause order limit = .ok c) :
    ∃ site, Site.locate countAlias (bytes base) = .ok site ∧
      bytes c.sql = site.woven countAlias (clause.render dialect (baseParams.length + 1)).sql clause
        order limit := by
  obtain ⟨site, hsite, hsql⟩ := weave_of_compose h
  refine ⟨site, hsite, ?_⟩
  rw [Site.woven, Site.text_eq hsite, Site.outline_eq hsite]
  exact hsql

section

variable {r : Remark} {base base' : String} (hbase : bytes base = r.bare)
  (hbase' : bytes base' = r.commented)

include hbase hbase'

/-- A comment more is no reason to refuse a statement, nor to accept it. -/
theorem refusal?_commented (countAlias : String) (bounded : Bool) :
    refusal? countAlias base' bounded = refusal? countAlias base bounded := by
  rw [refusal?, refusal?, hbase, hbase', r.locate_commented]
  cases Site.locate countAlias r.bare with
  | error e => rfl
  | ok site =>
    have hpaging : (site.move r.slide r.commented).paging?.isSome = site.paging?.isSome := by
      rw [Site.paging?_move r.strictMono_slide, Option.isSome_map]
    simp only [Except.map, hpaging]

/-- **A comment in a statement is transparent.** With a comment between two blanks instead of a
blank, anywhere in the code of a base statement, a listing is refused for the same reason, or
composed with the same parameters. Its tokens are the same ones as well, as long as no name that is
added to the statement leaves a quote or a comment open; the base statement may do so. -/
theorem compose_commented (hplain : PlainBlanks (bytes base)) (dialect : Dialect)
    (countAlias : String) (baseParams : List Value) (clause : WhereClause) (order : OrderBy)
    (limit : Limit) :
    (∀ e, compose dialect countAlias base' baseParams clause order limit = .error e ↔
      compose dialect countAlias base baseParams clause order limit = .error e) ∧
    ∀ c, compose dialect countAlias base baseParams clause order limit = .ok c →
      ∃ c', compose dialect countAlias base' baseParams clause order limit = .ok c' ∧
        c'.params = c.params ∧
        ((∀ name ∈ countAlias :: clause.columns ++ order.columns, EndsInCode (bytes name)) →
          tokenLexemes (bytes c'.sql) = tokenLexemes (bytes c.sql)) := by
  have hrefusal := refusal?_commented hbase hbase' countAlias limit.isBounded
  refine ⟨fun e => ?_, fun c hc => ?_⟩
  · rw [compose_error_iff, compose_error_iff, hrefusal]
  obtain ⟨c', hc'⟩ := compose_isOk_iff.2 (hrefusal.trans (compose_isOk_iff.1 ⟨c, hc⟩))
  have hparams {base : String} {c : Composed}
      (hc : compose dialect countAlias base baseParams clause order limit = .ok c) :
      c.params = baseParams ++ (clause.render dialect (baseParams.length + 1)).params := by
    obtain ⟨-, -, -, -, -, -, hparams, -⟩ := compose_ok hc
    exact hparams
  refine ⟨c', hc', (hparams hc').trans (hparams hc).symm, fun hnames => ?_⟩
  simp only [List.cons_append, List.forall_mem_cons, List.forall_mem_append] at hnames
  obtain ⟨halias, hclause, horder⟩ := hnames
  obtain ⟨site, hsite, hsql⟩ := woven_of_compose hc
  obtain ⟨site', hsite', hsql'⟩ := woven_of_compose hc'
  rw [hbase] at hsite
  rw [hbase', r.locate_commented, hsite] at hsite'
  obtain rfl := Except.ok.inj hsite'
  have hphrase : ∀ e ∈ site.edits countAlias
      (clause.render dialect (baseParams.length + 1)).sql clause order, Phrase (bytes e.text) :=
    fun e => Site.phrase_of_mem_edits halias
      (fun hne => WhereClause.phrase_render dialect _ hne hclause) horder
  rw [hsql, hsql', r.tokenLexemes_woven hsite limit (hbase ▸ hplain) hphrase]

end

/-- The comment opens a quote and mentions the count column, and precedes a predicate that does not
close its quote. -/
theorem compose_commented_predicate :
    ∃ r : Remark, bytes "SELECT a FROM t WHERE a > 'x" = r.bare ∧
      bytes "SELECT a FROM t WHERE /* total ' */ a > 'x" = r.commented ∧
      PlainBlanks (bytes "SELECT a FROM t WHERE a > 'x") ∧
      ∃ c c', compose .postgres "total" "SELECT a FROM t WHERE a > 'x" []
          ⟨.and, [[⟨"\"A b\"", .equal, .null, false⟩]]⟩ ⟨[]⟩ (.bounded 5 0) = .ok c ∧
        compose .postgres "total" "SELECT a FROM t WHERE /* total ' */ a > 'x" []
          ⟨.and, [[⟨"\"A b\"", .equal, .null, false⟩]]⟩ ⟨[]⟩ (.bounded 5 0) = .ok c' ∧
        c'.params = c.params ∧ tokenLexemes (bytes c'.sql) = tokenLexemes (bytes c.sql) := by
  have hplain : PlainBlanks (bytes "SELECT a FROM t WHERE a > 'x") :=
    (plainBlanks_iff _).1 (by decide +kernel)
  have hcompose : ∃ c, compose .postgres "total" "SELECT a FROM t WHERE a > 'x" []
      ⟨.and, [[⟨"\"A b\"", .equal, .null, false⟩]]⟩ ⟨[]⟩ (.bounded 5 0) = .ok c :=
    compose_isOk_iff.2 (by decide +kernel)
  obtain ⟨c, hc⟩ := hcompose
  let r : Remark :=
    { front := bytes "SELECT a FROM t WHERE"
      blank := Ascii.space
      comment := Ascii.slash :: Ascii.asterisk ::
        (bytes " total ' " ++ [Ascii.asterisk, Ascii.slash])
      back := bytes "a > 'x"
      isBlank := rfl
      inCode := ⟨0, by decide +kernel⟩
      isComment := .block (by decide +kernel) }
  have hbase : bytes "SELECT a FROM t WHERE a > 'x" = r.bare := by decide +kernel
  have hbase' : bytes "SELECT a FROM t WHERE /* total ' */ a > 'x" = r.commented := by
    decide +kernel
  obtain ⟨c', hc', hparams, htokens⟩ := (compose_commented hbase hbase' hplain .postgres "total" []
    ⟨.and, [[⟨"\"A b\"", .equal, .null, false⟩]]⟩ ⟨[]⟩ (.bounded 5 0)).2 c hc
  exact ⟨r, hbase, hbase', hplain, c, c', hc, hc', hparams, htokens (by decide +kernel)⟩

/-- A name that opens a quote takes what follows it into the quote, comments included. -/
theorem compose_commented_quote :
    ∃ r : Remark, bytes "SELECT a FROM t GROUP BY a" = r.bare ∧
      bytes "SELECT a FROM t GROUP /**/ BY a" = r.commented ∧
      PlainBlanks (bytes "SELECT a FROM t GROUP BY a") ∧
      ∃ c c', compose .postgres "_zf_count" "SELECT a FROM t GROUP BY a" []
          ⟨.and, [[⟨"'", .equal, .int 1, false⟩]]⟩ ⟨[]⟩ .unbounded = .ok c ∧
        compose .postgres "_zf_count" "SELECT a FROM t GROUP /**/ BY a" []
          ⟨.and, [[⟨"'", .equal, .int 1, false⟩]]⟩ ⟨[]⟩ .unbounded = .ok c' ∧
        tokenLexemes (bytes c'.sql) ≠ tokenLexemes (bytes c.sql) := by
  let r : Remark :=
    { front := bytes "SELECT a FROM t GROUP"
      blank := Ascii.space
      comment := Ascii.slash :: Ascii.asterisk :: ([] ++ [Ascii.asterisk, Ascii.slash])
      back := bytes "BY a"
      isBlank := rfl
      inCode := ⟨0, by decide +kernel⟩
      isComment := .block (by decide +kernel) }
  have h : compose .postgres "_zf_count" "SELECT a FROM t GROUP BY a" []
      ⟨.and, [[⟨"'", .equal, .int 1, false⟩]]⟩ ⟨[]⟩ .unbounded = .ok
        ⟨[.kept "SELECT", .added " count(*) OVER() AS _zf_count,", .kept " a FROM t",
          .added " WHERE (' = $1)", .kept " GROUP BY a"], [.int 1], "_zf_count", 7⟩ := by
    cbv
  have h' : compose .postgres "_zf_count" "SELECT a FROM t GROUP /**/ BY a" []
      ⟨.and, [[⟨"'", .equal, .int 1, false⟩]]⟩ ⟨[]⟩ .unbounded = .ok
        ⟨[.kept "SELECT", .added " count(*) OVER() AS _zf_count,", .kept " a FROM t",
          .added " WHERE (' = $1)", .kept " GROUP /**/ BY a"], [.int 1], "_zf_count", 7⟩ := by
    cbv
  exact ⟨r, by decide +kernel, by decide +kernel, (plainBlanks_iff _).1 (by decide +kernel), _, _,
    h, h', by decide +kernel⟩

end Listing
