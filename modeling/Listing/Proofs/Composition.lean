import Listing.Proofs.Insertions
import Listing.Proofs.Rendering
import Listing.Proofs.Sites
import Mathlib

/-!
# Composing does not change what is read

`compose_reads`: whatever clauses are added to a balanced base statement, its own bytes keep what
they belong to and their depth, except that those of a predicate put in parentheses are one deeper;
what is added belongs to what it belongs to when read alone, so nothing is added inside a literal or
a comment of the base; and the statement ends in code with no parenthesis open.

The edits of a site are neutral, except for the two that enclose a predicate; so the depth of a byte
of the base depends on those two only (`Site.depthAt_edits`).
-/

namespace Listing

open Text

/-! ## Composed statements -/

/-- What a successful composition consists of. -/
theorem compose_ok {dialect : Dialect} {countAlias base : String} {baseParams : List Value}
    {clause : WhereClause} {order : OrderBy} {limit : Limit} {c : Composed}
    (h : compose dialect countAlias base baseParams clause order limit = .ok c) :
    ∃ site pieces, Site.locate countAlias (bytes base) = .ok site ∧
      (limit.isBounded && site.paging?.isSome) = false ∧
      Edit.splice? ((bytes base).take (Outline.of (bytes base)).codeEnd)
        (site.countEdit countAlias ::
          site.predicateEdits clause (clause.render dialect (baseParams.length + 1)).sql ++
            site.orderEdits order) = some pieces ∧
      c.pieces = pieces ++ limit.tail ∧
      c.params = baseParams ++ (clause.render dialect (baseParams.length + 1)).params ∧
      c.countAlias = countAlias ∧ c.countPosition = site.projection + 1 := by
  unfold compose at h
  cases hsite : Site.locate countAlias (bytes base) with
  | error e =>
    rw [hsite] at h
    cases h
  | ok site =>
    rw [hsite] at h
    simp only [bind, Except.bind] at h
    split at h
    · cases h
    · rename_i hpaging
      split at h
      · cases h
      · rename_i pieces hpieces
        cases h
        rw [Site.text_eq hsite, Site.outline_eq hsite] at hpieces
        exact ⟨site, pieces, rfl, by simpa using hpaging, hpieces, rfl, rfl, rfl, rfl⟩

theorem Composed.bytes_sql (c : Composed) : bytes c.sql = c.pieces.flatMap Piece.bytes := by
  rw [sql, bytes_join, List.flatMap_map]
  rfl

/-- The limit as an edit at the end of a text. -/
def Limit.edits (limit : Limit) (position : Nat) : List Edit :=
  if limit.isBounded then [⟨position, " " ++ limit.render⟩] else []

/-- Pieces that differ in nothing but an empty kept piece at the end. -/
def SamePieces (ps qs : List Piece) : Prop := qs = ps ∨ qs = ps ++ [.kept ""]

theorem SamePieces.flatMap {ps qs : List Piece} (h : SamePieces ps qs)
    {f : Piece → List UInt8} (hf : f (.kept "") = []) : qs.flatMap f = ps.flatMap f := by
  rcases h with rfl | rfl
  · rfl
  · simp [hf]

theorem SamePieces.split {ps qs l r : List Piece} {x : Piece} (h : SamePieces ps qs)
    (hl : ps = l ++ x :: r) : ∃ r', qs = l ++ x :: r' := by
  rcases h with rfl | rfl
  · exact ⟨r, hl⟩
  · exact ⟨r ++ [.kept ""], by rw [hl, List.append_assoc, List.cons_append]⟩

/-- An edit at the end of a text adds its text behind all pieces. -/
theorem Edit.piecesFrom_append_end {base : List UInt8} {cursor : Nat} {es : List Edit}
    {ps : List Piece} (hcursor : cursor ≤ base.length) (h : piecesFrom base cursor es = some ps)
    (t : String) :
    piecesFrom base cursor (es ++ [⟨base.length, t⟩]) = some (ps ++ [.added t, .kept ""]) := by
  induction es generalizing cursor ps with
  | nil =>
    obtain ⟨kept, hkept, rfl⟩ := piecesFrom_nil h
    have hend : ofBytes? [] = some "" := ofBytes?_bytes ""
    simp [piecesFrom, hcursor, ← hkept, hend]
  | cons e es ih =>
    obtain ⟨hle, hlength, kept, ps', hkept, hps', rfl⟩ := piecesFrom_cons h
    rw [List.cons_append, piecesFrom, if_pos ⟨hle, hlength⟩, ih hlength hps', ← hkept]
    simp

theorem Edit.piecesFrom_limit {base : List UInt8} {es : List Edit} {ps : List Piece}
    (h : piecesFrom base 0 es = some ps) (limit : Limit) :
    ∃ qs, piecesFrom base 0 (es ++ limit.edits base.length) = some qs ∧
      SamePieces (ps ++ limit.tail) qs := by
  unfold Limit.edits Limit.tail
  split
  · exact ⟨_, piecesFrom_append_end (Nat.zero_le _) h _, .inr (by simp)⟩
  · exact ⟨ps, by simpa using h, .inl (by simp)⟩

/-- A composed statement is the code of its base with the edits of its site, the limit at the
end. -/
theorem weave_of_compose {dialect : Dialect} {countAlias base : String} {baseParams : List Value}
    {clause : WhereClause} {order : OrderBy} {limit : Limit} {c : Composed}
    (h : compose dialect countAlias base baseParams clause order limit = .ok c) :
    ∃ site, Site.locate countAlias (bytes base) = .ok site ∧
      bytes c.sql = Edit.weave ((bytes base).take (Outline.of (bytes base)).codeEnd) 0
        (Edit.sort (site.countEdit countAlias ::
          site.predicateEdits clause (clause.render dialect (baseParams.length + 1)).sql ++
            site.orderEdits order) ++ limit.edits (Outline.of (bytes base)).codeEnd) := by
  obtain ⟨site, pieces, hsite, -, hsplice, hpieces, -⟩ := compose_ok h
  obtain ⟨qs, hqs, hsame⟩ := Edit.piecesFrom_limit hsplice limit
  rw [List.length_take_of_le (Outline.codeEnd_le _)] at hqs
  exact ⟨site, hsite, by
    rw [c.bytes_sql, hpieces, ← hsame.flatMap rfl, Edit.bytes_of_piecesFrom hqs]⟩

/-! ## The texts of the edits -/

/-- A text that may be added anywhere in code, and leaves the depth as it is. -/
structure Addable (u : List UInt8) : Prop where
  fit : Reader.Fit u
  neutral : Reader.Neutral u

namespace Addable

variable {u v : List UInt8}

theorem append (hu : Addable u) (hv : Addable v) : Addable (u ++ v) :=
  ⟨hu.fit.append hv.fit, hu.neutral.append hv.neutral hu.fit.splits_right⟩

theorem append_plain (hu : Addable u) (hv : IsPlain v) : Addable (u ++ v) := by
  refine ⟨⟨?_, ?_, ?_⟩, hu.neutral.append (Reader.neutral_of_isPlain hv) hu.fit.splits_right⟩
  · simp [hu.fit.ne_nil]
  · obtain ⟨b, u, rfl⟩ := List.exists_cons_of_ne_nil hu.fit.ne_nil
    exact hu.fit.head
  · intro a ha
    rw [List.getLast?_append] at ha
    rcases Option.or_eq_some_iff.1 ha with ha | ⟨-, ha⟩
    · exact Reader.ne_of_isPlain (hv a (List.mem_of_getLast? ha))
    · exact hu.fit.last a ha

end Addable

instance (u : List UInt8) : Decidable (Addable u) :=
  decidable_of_iff (Reader.Fit u ∧ Reader.Neutral u) ⟨fun h => ⟨h.1, h.2⟩, fun h => ⟨h.1, h.2⟩⟩

theorem Enclosed.addable {u : List UInt8} (h : Enclosed u) : Addable u := ⟨h.fit, h.neutral⟩

theorem Limit.addable_edits (limit : Limit) (position : Nat) :
    ∀ e ∈ limit.edits position, Addable (bytes e.text) := by
  intro e he
  unfold edits at he
  split at he
  · rw [List.mem_singleton] at he
    subst he
    rw [bytes_append]
    exact Addable.append_plain (by decide) limit.plain_render
  · cases he

namespace Site

variable {countAlias predicate : String} {text : List UInt8} {site : Site} {clause : WhereClause}
  {order : OrderBy}

theorem addable_countEdit (halias : Identifier.isPlain countAlias = true) :
    Addable (bytes (site.countEdit countAlias).text) := by
  have hword := Identifier.isWord_of_isPlain halias
  simp only [countEdit, bytes_append]
  exact (Addable.append_plain (by decide) hword.isPlain).append_plain (by decide)

theorem addable_orderEdits (h : ∀ c ∈ order.columns, Identifier.isQualified c = true) :
    ∀ e ∈ site.orderEdits order, Addable (bytes e.text) := by
  have hplain := OrderBy.plain_render h
  intro e he
  obtain ⟨-, htext | htext⟩ := text_of_mem_orderEdits he
  · rw [htext, bytes_append]
    exact Addable.append_plain (by decide) hplain
  · rw [htext, bytes_append, bytes_append]
    exact (Addable.append_plain (by decide) hplain).append_plain (by decide)

/-- Without a predicate to put in parentheses, the new one is added as it is. -/
theorem addable_predicateEdits (hpredicate : clause.isEmpty = false → Enclosed (bytes predicate))
    (hbody : clause.isEmpty = false → site.body? = none) :
    ∀ e ∈ site.predicateEdits clause predicate, Addable (bytes e.text) := by
  intro e he
  obtain ⟨hclause, -⟩ := text_of_mem_predicateEdits he
  have hbody' := hbody hclause
  have hadd := (hpredicate hclause).addable
  unfold body? at hbody'
  rw [predicateEdits, hclause, if_neg Bool.false_ne_true] at he
  split at he
  · rw [List.mem_singleton] at he
    subst he
    rw [bytes_append]
    exact Addable.append (by decide) hadd
  · rename_i present hpresent
    simp only [hpresent] at hbody'
    split at hbody'
    · cases hbody'
    · rename_i hlt
      rw [if_neg hlt, List.mem_singleton] at he
      subst he
      rw [bytes_append]
      exact Addable.append (by decide) hadd

/-- A predicate in parentheses is between the two edits that put it there. -/
theorem predicateEdits_of_body (hclause : clause.isEmpty = false) {start stop : Nat}
    (hbody : site.body? = some (start, stop)) (hpredicate : Enclosed (bytes predicate)) :
    start < stop ∧ ∃ added, Addable (bytes added) ∧
      site.predicateEdits clause predicate = [⟨start, "("⟩, ⟨stop, ") AND " ++ added⟩] := by
  unfold body? at hbody
  split at hbody
  · cases hbody
  · rename_i present hpresent
    simp only at hbody
    split at hbody
    · rename_i hlt
      cases hbody
      refine ⟨hlt, if 1 < clause.groups.length then "(" ++ predicate ++ ")" else predicate, ?_, ?_⟩
      · split
        · exact (enclosed_parens hpredicate.neutral).addable
        · exact hpredicate.addable
      · rw [predicateEdits, hclause, if_neg Bool.false_ne_true]
        simp only [hpresent, if_pos hlt]
    · cases hbody

/-- Whether a byte of the base statement belongs to a predicate that is put in parentheses. -/
def wraps (site : Site) (clause : WhereClause) (position : Nat) : Bool :=
  !clause.isEmpty && site.body?.any fun body => body.1 ≤ position && position < body.2

theorem leads_predicateEdits (hpredicate : clause.isEmpty = false → Enclosed (bytes predicate)) :
    Edit.Leads 0 (site.predicateEdits clause predicate) 0 := by
  by_cases hbody : clause.isEmpty = false → site.body? = none
  · exact .of_neutral (fun e he => by
      have hadd := addable_predicateEdits hpredicate hbody e he
      exact ⟨hadd.fit, hadd.neutral⟩) 0
  · obtain ⟨hclause, hsome⟩ := Classical.not_imp.1 hbody
    obtain ⟨⟨start, stop⟩, hsome⟩ := Option.ne_none_iff_exists'.1 hsome
    obtain ⟨-, added, hadd, hedits⟩ := predicateEdits_of_body hclause hsome (hpredicate hclause)
    rw [hedits]
    have hclose : Reader.Fit (bytes ") AND ") := by decide
    have hadded : Reader.Fit (bytes (") AND " ++ added)) := by
      rw [bytes_append]
      exact hclose.append hadd.fit
    have hopen : Reader.Fit (bytes "(") := by decide
    have hone : (⟨.code, 0⟩ : Reader).after (bytes "(") = ⟨.code, 1⟩ := by decide
    refine .cons hopen hone (.cons hadded ?_ .nil)
    rw [bytes_append, Reader.after_append hclose.splits_right]
    exact hadd.neutral.closed

/-- The edits that enclose the predicate open one parenthesis in front of it, and close it. -/
theorem depthAt_predicateEdits
    (hpredicate : clause.isEmpty = false → Enclosed (bytes predicate)) (position : Nat) :
    Edit.depthAt 0 (site.predicateEdits clause predicate) position =
      if site.wraps clause position then 1 else 0 := by
  by_cases hbody : clause.isEmpty = false → site.body? = none
  · have hwraps : site.wraps clause position = false := by
      unfold wraps
      cases hclause : clause.isEmpty with
      | true => rfl
      | false => rw [hbody hclause]; rfl
    rw [hwraps, if_neg Bool.false_ne_true]
    exact Edit.depthAt_of_neutral
      (fun e he => (addable_predicateEdits hpredicate hbody e he).neutral) 0 position
  · obtain ⟨hclause, hsome⟩ := Classical.not_imp.1 hbody
    obtain ⟨⟨start, stop⟩, hsome⟩ := Option.ne_none_iff_exists'.1 hsome
    obtain ⟨hlt, added, hadd, hedits⟩ := predicateEdits_of_body hclause hsome (hpredicate hclause)
    have hclose : Reader.Fit (bytes ") AND ") := by decide
    have hopened : (({} : Reader).after (bytes "(")).depth = 1 := rfl
    have hclosed : ((⟨.code, 1⟩ : Reader).after (bytes (") AND " ++ added))).depth = 0 := by
      rw [bytes_append, Reader.after_append hclose.splits_right]
      exact congrArg Reader.depth hadd.neutral.closed
    rw [hedits, wraps, hclause, hsome]
    simp only [Edit.depthAt, hopened, hclosed, Option.any_some, Bool.not_false, Bool.true_and,
      Bool.and_eq_true, decide_eq_true_eq]
    by_cases hfront : start ≤ position
    · by_cases hback : stop ≤ position
      · rw [if_pos hfront, if_pos hback, if_neg (by omega)]
      · rw [if_pos hfront, if_neg hback, if_pos (by omega)]
    · rw [if_neg hfront, if_neg (by omega)]

/-! ## Reading a composed statement -/

section

variable (hbalanced : Balanced text) (h : locate countAlias text = .ok site)
  (halias : Identifier.isPlain countAlias = true)
  (hpredicate : clause.isEmpty = false → Enclosed (bytes predicate))
  (horder : ∀ c ∈ order.columns, Identifier.isQualified c = true)

include hbalanced h halias hpredicate horder

/-- The edits of a composition, that for the limit included, may be made in a balanced text. -/
theorem sound_edits (limit : Limit) :
    Edit.Sound text 0 (Outline.of text).codeEnd 0
      (Edit.sort (site.countEdit countAlias ::
        site.predicateEdits clause predicate ++ site.orderEdits order) ++
          limit.edits (Outline.of text).codeEnd) := by
  obtain ⟨es, hsort, -, hes⟩ := sort_edits h clause predicate order
  have hstart : Cut text 0 0 := ⟨Nat.zero_le _, rfl, Reader.splits_of_last (by simp)⟩
  have hmem := Edit.mem_of_sort hsort
  rw [hsort]
  refine ⟨hbalanced, hstart, Outline.cut_codeEnd hbalanced, Nat.zero_le _, fun e he => ?_, ?_⟩
  · rcases List.mem_append.1 he with he | he
    · rcases List.mem_cons.1 he with rfl | he
      · exact (fits_count h).cut
      rcases hmem e he with he | he
      · exact (fits_predicateEdits hbalanced h he).cut
      · exact (fits_orderEdits hbalanced h he).cut
    · unfold Limit.edits at he
      split at he
      · rw [List.mem_singleton] at he
        subst he
        exact Outline.cut_codeEnd hbalanced
      · cases he
  · have hcount : Addable (bytes (site.countEdit countAlias).text) := addable_countEdit halias
    have horders : Edit.Leads 0 (site.orderEdits order) 0 := .of_neutral (fun e he => by
      have hadd := addable_orderEdits horder e he
      exact ⟨hadd.fit, hadd.neutral⟩) 0
    have hlimit : Edit.Leads 0 (limit.edits (Outline.of text).codeEnd) 0 :=
      .of_neutral (fun e he => by
        have hadd := limit.addable_edits _ e he
        exact ⟨hadd.fit, hadd.neutral⟩) 0
    have hpredicates : Edit.Leads 0 (site.predicateEdits clause predicate) 0 :=
      leads_predicateEdits hpredicate
    have hall : Edit.Leads 0 es 0 := by
      rcases hes with ⟨rfl, -⟩ | ⟨rfl, -⟩
      · exact hpredicates.append horders
      · exact horders.append hpredicates
    exact (Edit.Leads.cons hcount.fit hcount.neutral.closed hall).append hlimit

theorem depthAt_edits (limit : Limit) (position : Nat) :
    Edit.depthAt 0
        (Edit.sort (site.countEdit countAlias ::
          site.predicateEdits clause predicate ++ site.orderEdits order) ++
            limit.edits (Outline.of text).codeEnd) position =
      if site.wraps clause position then 1 else 0 := by
  obtain ⟨es, hsort, hordered, hes⟩ := sort_edits h clause predicate order
  have hcount : ∀ e ∈ [site.countEdit countAlias], Reader.Neutral (bytes e.text) := by
    intro e he
    rw [List.mem_singleton.1 he]
    exact (addable_countEdit halias).neutral
  have horders : ∀ e ∈ site.orderEdits order, Reader.Neutral (bytes e.text) :=
    fun e he => (addable_orderEdits horder e he).neutral
  have hlimit : ∀ e ∈ limit.edits (Outline.of text).codeEnd, Reader.Neutral (bytes e.text) :=
    fun e he => (limit.addable_edits _ e he).neutral
  have hfirst : ∀ e ∈ [site.countEdit countAlias], ∀ a ∈ es, e.position ≤ a.position := by
    intro e he a ha
    rw [List.mem_singleton.1 he]
    rcases Edit.mem_of_sort hsort a ha with ha | ha
    · exact (fits_predicateEdits hbalanced h ha).projection_le
    · exact (fits_orderEdits hbalanced h ha).projection_le
  rw [hsort, Edit.depthAt_append_neutral hlimit, ← List.singleton_append,
    Edit.depthAt_neutral_append hcount hfirst, ← depthAt_predicateEdits hpredicate]
  rcases hes with ⟨rfl, -⟩ | ⟨rfl, -⟩
  · exact Edit.depthAt_append_neutral horders 0 position
  · exact Edit.depthAt_neutral_append horders (List.pairwise_append.1 hordered).2.2 0 position

end

end Site

/-- How a composed statement is read, compared with the base statement. -/
structure Composed.Reads (c : Composed) (base : List UInt8) (deeper : Nat → Bool) : Prop where
  /-- The kept pieces in a row are the base statement up to the end of its code. -/
  kept : c.pieces.flatMap Piece.keptBytes = base.take (Outline.of base).codeEnd
  /-- A kept byte belongs to what it belongs to in the base, and has the depth that it has there, or
  one more. -/
  keptMark : ∀ l t r, c.pieces = l ++ .kept t :: r → ∀ k < (bytes t).length,
    (({} : Reader).marks (bytes c.sql))[(l.flatMap Piece.bytes).length + k]? =
      ((({} : Reader).marks base)[(l.flatMap Piece.keptBytes).length + k]?).map
        (·.deepen (if deeper ((l.flatMap Piece.keptBytes).length + k) then 1 else 0))
  /-- An added byte belongs to what it belongs to in its own text. -/
  addedClass : ∀ l t r, c.pieces = l ++ .added t :: r → ∀ k < (bytes t).length,
    ((({} : Reader).marks (bytes c.sql))[(l.flatMap Piece.bytes).length + k]?).map (·.cls) =
      ((({} : Reader).marks (bytes t))[k]?).map (·.cls)
  /-- The statement ends in code, with no parenthesis open. -/
  ends : ({} : Reader).after (bytes c.sql) = {}

/-- **Composing never changes what the base statement means lexically.** -/
theorem compose_reads {dialect : Dialect} {countAlias base : String} {baseParams : List Value}
    {clause : WhereClause} {order : OrderBy} {limit : Limit} {c : Composed}
    (hbalanced : Balanced (bytes base)) (halias : Identifier.isPlain countAlias = true)
    (hclause : ∀ column ∈ clause.columns, Identifier.isQualified column = true)
    (horder : ∀ column ∈ order.columns, Identifier.isQualified column = true)
    (h : compose dialect countAlias base baseParams clause order limit = .ok c) :
    ∃ site, Site.locate countAlias (bytes base) = .ok site ∧
      c.Reads (bytes base) (site.wraps clause) := by
  obtain ⟨site, pieces, hsite, -, hpieces, hc, -, -, -⟩ := compose_ok h
  refine ⟨site, hsite, ?_⟩
  have hpredicate : clause.isEmpty = false →
      Enclosed (bytes (clause.render dialect (baseParams.length + 1)).sql) :=
    fun hne => WhereClause.enclosed_render dialect _ hne hclause
  have hsound := Site.sound_edits hbalanced hsite halias hpredicate horder limit
  have hdepth := Site.depthAt_edits hbalanced hsite halias hpredicate horder limit
  obtain ⟨qs, hqs, hsame⟩ := Edit.piecesFrom_limit hpieces limit
  have hlength : ((bytes base).take (Outline.of (bytes base)).codeEnd).length =
      (Outline.of (bytes base)).codeEnd := by
    rw [List.length_take]
    exact Nat.min_eq_left (Outline.codeEnd_le _)
  rw [hlength] at hqs
  rw [← hc] at hsame
  have hbytes : bytes c.sql = qs.flatMap Piece.bytes := by
    rw [c.bytes_sql]
    exact (hsame.flatMap rfl).symm
  constructor
  · rw [← hsame.flatMap (f := Piece.keptBytes) rfl, Edit.keptBytes_of_piecesFrom hqs,
      List.drop_zero]
  · intro l t r hl k hk
    obtain ⟨r', hl'⟩ := hsame.split hl
    have hmark := Edit.marks_kept hsound hqs hl' hk
    rw [Nat.zero_add] at hmark
    rw [hbytes, hmark, hdepth]
  · intro l t r hl k hk
    obtain ⟨r', hl'⟩ := hsame.split hl
    rw [hbytes]
    exact Edit.cls_added hsound hqs hl' hk
  · rw [hbytes]
    exact Edit.after_pieces hsound hqs

/-- A predicate that is put in parentheses, with the other clauses around it. -/
theorem compose_reads_wrapped :
    ∃ c, compose .postgres "total" "SELECT a FROM t WHERE b = 'x' OR c" []
        ⟨.and, [[⟨"t.a", .equal, .null, false⟩]]⟩ ⟨[⟨"a", .ascending, true⟩]⟩ (.bounded 5 0) =
          .ok c ∧
      c.sql = "SELECT count(*) OVER() AS total, a FROM t WHERE (b = 'x' OR c) AND (t.a = $1) " ++
        "ORDER BY a ASC NULLS LAST LIMIT 5 OFFSET 0" ∧
      ∃ site, Site.locate "total" (bytes "SELECT a FROM t WHERE b = 'x' OR c") = .ok site ∧
        c.Reads (bytes "SELECT a FROM t WHERE b = 'x' OR c")
          (site.wraps ⟨.and, [[⟨"t.a", .equal, .null, false⟩]]⟩) := by
  have h : compose .postgres "total" "SELECT a FROM t WHERE b = 'x' OR c" []
      ⟨.and, [[⟨"t.a", .equal, .null, false⟩]]⟩ ⟨[⟨"a", .ascending, true⟩]⟩ (.bounded 5 0) =
        .ok ⟨[.kept "SELECT", .added " count(*) OVER() AS total,", .kept " a FROM t WHERE ",
          .added "(", .kept "b = 'x' OR c", .added ") AND (t.a = $1)", .kept "",
          .added " ORDER BY a ASC NULLS LAST", .kept "", .added " LIMIT 5 OFFSET 0"],
          [.null], "total", 7⟩ := by
    cbv
  refine ⟨_, h, by decide +kernel, ?_⟩
  exact compose_reads (by decide +kernel) (by decide +kernel) (by decide +kernel)
    (by decide +kernel) h

end Listing
