import Listing.Proofs.Boundaries
import Listing.Proofs.Composition
import Mathlib

/-!
# Splicing is total

Edits can be made if they come in order, at boundaries within the text (`Edit.exists_piecesFrom`).
The edits of a site do so whatever the base statement is (`Site.insertable_predicateEdits`,
`Site.exists_pieces`): also if it does not close its quotes, comments or parentheses, has
parentheses too many or characters outside ASCII anywhere. So what composing refuses it refuses for
the base statement and the limit alone (`compose_error_iff`).

`compose_splices`: the composed statement is the code of its base with texts inserted, the count
column first, and the limit behind it.
-/

namespace Listing

open Text

/-! ## Insertions at boundaries -/

/-- A place in the code of a base statement where a text may be inserted. -/
structure Insertable (base : String) (position : Nat) : Prop where
  boundary : Boundary base position
  le_codeEnd : position ≤ (Outline.of (bytes base)).codeEnd

/-- Edits in order can be made up to a boundary behind them. -/
theorem Edit.exists_piecesFrom {base : String} {cursor stop : Nat} {es : List Edit}
    (hcursor : Boundary base cursor) (hstop : Boundary base stop) (hle : cursor ≤ stop)
    (hordered : es.Pairwise fun e a => e.position ≤ a.position)
    (hes : ∀ e ∈ es, cursor ≤ e.position ∧ e.position ≤ stop ∧ Boundary base e.position) :
    ∃ ps, piecesFrom ((bytes base).take stop) cursor es = some ps := by
  induction es generalizing cursor with
  | nil =>
    obtain ⟨kept, hkept⟩ := hcursor.exists_between hstop hle
    exact ⟨[.kept kept], by rw [piecesFrom, hkept]; rfl⟩
  | cons e es ih =>
    obtain ⟨hfront, hback, hboundary⟩ := hes e List.mem_cons_self
    obtain ⟨hbehind, hordered'⟩ := List.pairwise_cons.1 hordered
    obtain ⟨kept, hkept⟩ := hcursor.exists_between hboundary hfront
    obtain ⟨ps, hps⟩ := ih hboundary hback hordered' fun a ha =>
      ⟨hbehind a ha, (hes a (List.mem_cons_of_mem e ha)).2⟩
    refine ⟨.kept kept :: .added e.text :: ps, ?_⟩
    have hlength : e.position ≤ ((bytes base).take stop).length := by
      have := hstop.le
      rw [List.length_take]
      omega
    rw [piecesFrom, if_pos ⟨hfront, hlength⟩, List.take_take, Nat.min_eq_left hback, hkept, hps]
    rfl

/-- The text of a piece that was inserted. -/
def Piece.addedText? : Piece → Option String
  | kept _ => none
  | added text => some text

/-- The pieces that are not kept are the texts of the edits. -/
theorem Edit.added_of_piecesFrom {base : List UInt8} {cursor : Nat} {es : List Edit}
    {ps : List Piece} (h : piecesFrom base cursor es = some ps) :
    ps.filterMap Piece.addedText? = es.map (·.text) := by
  induction es generalizing cursor ps with
  | nil =>
    obtain ⟨t, -, rfl⟩ := piecesFrom_nil h
    rfl
  | cons e es ih =>
    obtain ⟨-, -, t, ps', -, hps', rfl⟩ := piecesFrom_cons h
    rw [List.map_cons, ← ih hps']
    rfl

namespace Site

open Outline

variable {countAlias base : String} {site : Site} {clause : WhereClause} {predicate : String}
  {order : OrderBy} {e : Edit}

theorem insertable_stop {w : Word} (hw : w ∈ (Outline.of (bytes base)).words) :
    Insertable base w.stop :=
  ⟨boundary_stop hw, (word_bounds hw).2.2⟩

theorem insertable_clauseEnd (base : String) (ks : List Keyword) (position : Nat) :
    Insertable base (clauseEnd (bytes base) ks position) := by
  refine ⟨?_, clauseEnd_le_codeEnd (bytes base) ks position⟩
  unfold clauseEnd
  cases hp : (Outline.of (bytes base)).earliest? ks position with
  | none => exact boundary_codeEnd base
  | some p =>
    obtain ⟨w, hw, v, -, rfl, -, -⟩ := place_words (List.mem_of_head? hp)
    exact boundary_before hw

theorem insertable_projection (h : locate countAlias (bytes base) = .ok site) :
    Insertable base site.projection := by
  obtain ⟨select, hselect, -⟩ := locate_ok h
  obtain ⟨w, hw, hprojection, -⟩ := exists_projection_word h hselect
  rw [hprojection]
  exact insertable_stop hw

theorem insertable_predicateEdits (h : locate countAlias (bytes base) = .ok site)
    (he : e ∈ site.predicateEdits clause predicate) : Insertable base e.position := by
  rcases predicateEdits_position h he with ⟨w, -, -, hend⟩ | ⟨w, hw, -, hstart, hlt⟩
  · rw [hend]
    exact insertable_clauseEnd base _ _
  · -- the blanks behind WHERE are passed character by character
    have hblanks := (boundary_stop hw).behind_blanks
    have hle := clauseEnd_le_codeEnd (bytes base) Keyword.afterWhere w.stop
    rw [← hstart] at hblanks
    exact ⟨hblanks, by omega⟩

theorem insertable_orderEdits (h : locate countAlias (bytes base) = .ok site)
    (he : e ∈ site.orderEdits order) : Insertable base e.position := by
  rcases orderEdits_position h he with hend | ⟨present, hpresent, hstop⟩
  · rw [hend]
    exact insertable_clauseEnd base _ _
  · obtain ⟨w, -, v, hv, rfl, -, -⟩ := place_words hpresent
    rw [hstop]
    exact insertable_stop hv

/-- All edits of a site can be made, in any base statement, and the count column comes first. -/
theorem exists_pieces (h : locate countAlias (bytes base) = .ok site) (clause : WhereClause)
    (predicate : String) (order : OrderBy) :
    ∃ es ps, Edit.sort (site.countEdit countAlias ::
        site.predicateEdits clause predicate ++ site.orderEdits order) =
          site.countEdit countAlias :: es ∧
      (site.countEdit countAlias :: es).Pairwise (fun a b => a.position ≤ b.position) ∧
      (∀ e ∈ site.countEdit countAlias :: es, Insertable base e.position) ∧
      Edit.piecesFrom ((bytes base).take (Outline.of (bytes base)).codeEnd) 0
        (site.countEdit countAlias :: es) = some ps := by
  obtain ⟨es, hsort, hordered, -⟩ := sort_edits h clause predicate order
  have hmem := Edit.mem_of_sort hsort
  have hfirst : ∀ e ∈ es, site.projection ≤ e.position := by
    intro e he
    rcases hmem e he with he | he
    · exact projection_le_predicateEdits h he
    · exact projection_le_orderEdits h he
  have hall : ∀ e ∈ site.countEdit countAlias :: es, Insertable base e.position := by
    intro e he
    rcases List.mem_cons.1 he with rfl | he
    · exact insertable_projection h
    rcases hmem e he with he | he
    · exact insertable_predicateEdits h he
    · exact insertable_orderEdits h he
  have hpairwise : (site.countEdit countAlias :: es).Pairwise
      fun a b => a.position ≤ b.position :=
    List.pairwise_cons.2 ⟨hfirst, hordered⟩
  obtain ⟨ps, hps⟩ := Edit.exists_piecesFrom (Boundary.zero base) (boundary_codeEnd base)
    (Nat.zero_le _) hpairwise fun e he =>
      ⟨Nat.zero_le _, (hall e he).le_codeEnd, (hall e he).boundary⟩
  exact ⟨es, ps, hsort, hpairwise, hall, hps⟩

end Site

/-! ## What is refused -/

/-- Why a base statement cannot carry a count column, or a limit if there is one, if it cannot. -/
def refusal? (countAlias base : String) (bounded : Bool) : Option Error :=
  match Site.locate countAlias (bytes base) with
  | .error e => some e
  | .ok site => if bounded && site.paging?.isSome then some (.unsupported .ownPaging) else none

/-- What is refused is refused for one of the documented reasons. -/
theorem refusal?_eq_some {countAlias base : String} {bounded : Bool} {e : Error}
    (h : refusal? countAlias base bounded = some e) :
    e = .alreadyComposed ∨ ∃ why, e = .unsupported why := by
  unfold refusal? at h
  cases hsite : Site.locate countAlias (bytes base) with
  | error cause =>
    rw [hsite] at h
    obtain rfl : cause = e := Option.some.inj h
    simp only [Site.locate] at hsite
    split at hsite
    · cases hsite
      exact .inr ⟨.noSelect, rfl⟩
    · split at hsite
      · cases hsite
        exact .inr ⟨.distinct, rfl⟩
      split at hsite
      · cases hsite
        exact .inl rfl
      · cases hsite
  | ok site =>
    simp only [hsite] at h
    split at h
    · cases h
      exact .inr ⟨.ownPaging, rfl⟩
    · cases h

/-- The parameters, the predicate and the sort columns decide nothing about whether a statement can
be composed. -/
theorem compose_error_iff {dialect : Dialect} {countAlias base : String} {baseParams : List Value}
    {clause : WhereClause} {order : OrderBy} {limit : Limit} {e : Error} :
    compose dialect countAlias base baseParams clause order limit = .error e ↔
      refusal? countAlias base limit.isBounded = some e := by
  unfold compose refusal?
  cases hsite : Site.locate countAlias (bytes base) with
  | error e => simp [bind, Except.bind]
  | ok site =>
    obtain ⟨es, ps, hsort, -, -, hps⟩ := Site.exists_pieces hsite clause
      (clause.render dialect (baseParams.length + 1)).sql order
    have hsplice : Edit.splice? (site.text.take site.outline.codeEnd)
        (site.countEdit countAlias ::
          site.predicateEdits clause (clause.render dialect (baseParams.length + 1)).sql ++
            site.orderEdits order) = some ps := by
      rw [Edit.splice?, Site.text_eq hsite, Site.outline_eq hsite, hsort, hps]
    simp only [bind, Except.bind]
    by_cases hpaging : (limit.isBounded && site.paging?.isSome) = true
    · simp [hpaging, throw, throwThe, MonadExceptOf.throw]
    · simp only [hpaging, hsplice, Bool.false_eq_true, ↓reduceIte, pure, Except.pure, reduceCtorEq]

theorem compose_isOk_iff {dialect : Dialect} {countAlias base : String} {baseParams : List Value}
    {clause : WhereClause} {order : OrderBy} {limit : Limit} :
    (∃ c, compose dialect countAlias base baseParams clause order limit = .ok c) ↔
      refusal? countAlias base limit.isBounded = none := by
  rw [Option.eq_none_iff_forall_not_mem]
  constructor
  · rintro ⟨c, hc⟩ e he
    rw [compose_error_iff.2 he] at hc
    cases hc
  · intro h
    cases hc : compose dialect countAlias base baseParams clause order limit with
    | ok c => exact ⟨c, rfl⟩
    | error e => exact absurd (compose_error_iff.1 hc) (h e)

/-! ## What composing inserts -/

/-- The count column of a listing, as it stands in the list of selected columns. -/
def countColumn (countAlias : String) : String := "count(*) OVER() AS " ++ countAlias ++ ","

theorem Site.bytes_countEdit (site : Site) (countAlias : String) :
    bytes (site.countEdit countAlias).text = bytes " " ++ bytes (countColumn countAlias) := by
  have hblank : bytes " count(*) OVER() AS " = bytes " " ++ bytes "count(*) OVER() AS " := by
    decide +kernel
  have hassoc (u v w x : List UInt8) : u ++ v ++ w ++ x = u ++ (v ++ w ++ x) := by simp
  unfold countEdit countColumn
  rw [bytes_append, bytes_append, hblank, bytes_append, bytes_append]
  exact hassoc _ _ _ _

/-- What comes behind a statement with a limit. -/
def Limit.suffix : Limit → String
  | unbounded => ""
  | bounded limit offset => " LIMIT " ++ toString limit ++ " OFFSET " ++ toString offset

theorem Limit.tail_eq (limit : Limit) :
    limit.tail = if limit.isBounded then [.added limit.suffix] else [] := by
  cases limit with
  | unbounded => rfl
  | bounded limit offset =>
    have hblank : " " ++ "LIMIT " = " LIMIT " := rfl
    simp only [tail, render, suffix, ← String.append_assoc, hblank]

theorem Limit.bytes_tail (limit : Limit) : limit.tail.flatMap Piece.bytes = bytes limit.suffix := by
  rw [tail_eq]
  cases limit with
  | unbounded => rfl
  | bounded limit offset => simp [isBounded, Piece.bytes, Piece.text]

theorem Limit.keptBytes_tail (limit : Limit) : limit.tail.flatMap Piece.keptBytes = [] := by
  cases limit <;> rfl

theorem Limit.added_tail (limit : Limit) :
    limit.tail.filterMap Piece.addedText? = if limit.isBounded then [limit.suffix] else [] := by
  rw [tail_eq]
  cases limit <;> rfl

/-- A limit is written behind a statement, and changes nothing else of it. -/
theorem compose_unbounded {dialect : Dialect} {countAlias base : String} {baseParams : List Value}
    {clause : WhereClause} {order : OrderBy} {limit : Limit} {c : Composed}
    (h : compose dialect countAlias base baseParams clause order limit = .ok c) :
    ∃ c', compose dialect countAlias base baseParams clause order .unbounded = .ok c' ∧
      c'.params = c.params ∧ c'.countAlias = c.countAlias ∧ c'.countPosition = c.countPosition ∧
      c.sql = c'.sql ++ limit.suffix := by
  obtain ⟨site, pieces, hsite, -, hsplice, hpieces, hparams, halias, hposition⟩ := compose_ok h
  have hrefusal : refusal? countAlias base Limit.unbounded.isBounded = none := by
    simp [refusal?, hsite, Limit.isBounded]
  obtain ⟨c', hc'⟩ := compose_isOk_iff.2 hrefusal
  obtain ⟨site', pieces', hsite', -, hsplice', hpieces', hparams', halias', hposition'⟩ :=
    compose_ok hc'
  obtain rfl : site = site' := Except.ok.inj (hsite.symm.trans hsite')
  obtain rfl : pieces = pieces' := Option.some.inj (hsplice.symm.trans hsplice')
  refine ⟨c', hc', hparams'.trans hparams.symm, halias'.trans halias.symm,
    hposition'.trans hposition.symm, ?_⟩
  have htail : String.join (limit.tail.map Piece.text) = limit.suffix := by
    rw [limit.tail_eq]
    cases limit <;> simp [Limit.isBounded, Limit.suffix, Piece.text]
  have hnone : Limit.unbounded.tail = [] := rfl
  rw [Composed.sql, Composed.sql, hpieces, hpieces', hnone, List.append_nil, List.map_append,
    String.join_append, htail]

/-- How a composed statement comes from its base: by insertions into the code of the base, the count
column first, with the limit behind it. -/
structure Composed.Splices (c : Composed) (base countAlias : String) (limit : Limit)
    (edits : List Edit) : Prop where
  ordered : edits.Pairwise fun a b => a.position ≤ b.position
  insertable : ∀ e ∈ edits, Insertable base e.position
  sql : bytes c.sql =
    Edit.weave ((bytes base).take (Outline.of (bytes base)).codeEnd) 0 edits ++ bytes limit.suffix
  /-- What is left without the insertions and the limit is the code of the base. -/
  kept : c.pieces.flatMap Piece.keptBytes = (bytes base).take (Outline.of (bytes base)).codeEnd
  added : c.pieces.filterMap Piece.addedText? =
    edits.map (·.text) ++ if limit.isBounded then [limit.suffix] else []
  count : ∃ position, edits.head? = some ⟨position, " count(*) OVER() AS " ++ countAlias ++ ","⟩ ∧
    c.countPosition = position + 1
  reads : bytes (countColumn countAlias) <+: (bytes c.sql).drop c.countPosition

/-- What the first edit inserts stands right behind its position. -/
theorem Edit.prefix_drop_weave {base u v rest : List UInt8} {e : Edit} {es : List Edit}
    (hlength : e.position ≤ base.length) (htext : bytes e.text = u ++ v) :
    v <+: (weave base 0 (e :: es) ++ rest).drop (e.position + u.length) := by
  have htake : (base.take e.position).length = e.position := List.length_take_of_le hlength
  rw [weave, List.drop_zero, htext, ← List.drop_drop, List.append_assoc, List.drop_left' htake,
    List.append_assoc, List.append_assoc, List.drop_left' rfl]
  exact List.prefix_append v _

/-- **Splicing is total and leaves the code of the base in place**, whatever its text is: every
position that it is cut at is a boundary between characters of the text, and an insertion is never
misplaced. So a statement that is not refused for its base and limit is composed, by insertions into
the code of the base; and if there are no clauses to add, the count column is the only one. -/
theorem compose_splices (dialect : Dialect) (countAlias base : String) (baseParams : List Value)
    (clause : WhereClause) (order : OrderBy) (limit : Limit) :
    (∀ w ∈ (Outline.of (bytes base)).words,
      Boundary base w.before ∧ Boundary base w.start ∧ Boundary base w.stop ∧
        w.before ≤ w.start ∧ w.start < w.stop) ∧
    (refusal? countAlias base limit.isBounded ≠ some .misplacedEdit ∧
      ∀ e, compose dialect countAlias base baseParams clause order limit = .error e ↔
        refusal? countAlias base limit.isBounded = some e) ∧
    ∀ c, compose dialect countAlias base baseParams clause order limit = .ok c →
      ∃ edits, c.Splices base countAlias limit edits ∧
        (clause.isEmpty = true → order.isEmpty = true → edits.length = 1) := by
  refine ⟨fun w hw => ?_, ⟨fun hrefusal => ?_, fun e => compose_error_iff⟩, fun c hc => ?_⟩
  · have hbounds := Outline.word_bounds hw
    exact ⟨Outline.boundary_before hw, Outline.boundary_start hw, Outline.boundary_stop hw,
      hbounds.1, hbounds.2.1⟩
  · rcases refusal?_eq_some hrefusal with h | ⟨why, h⟩ <;> cases h
  obtain ⟨site, pieces, hsite, -, hsplice, hpieces, -, -, hposition⟩ := compose_ok hc
  obtain ⟨es, ps, hsort, hordered, hinsertable, hps⟩ := Site.exists_pieces hsite clause
    (clause.render dialect (baseParams.length + 1)).sql order
  rw [Edit.splice?, hsort, hps] at hsplice
  obtain rfl : ps = pieces := Option.some.inj hsplice
  have hlength : site.projection ≤ ((bytes base).take (Outline.of (bytes base)).codeEnd).length :=
    (Edit.piecesFrom_cons hps).2.1
  have hsql : bytes c.sql = Edit.weave ((bytes base).take (Outline.of (bytes base)).codeEnd) 0
      (site.countEdit countAlias :: es) ++ bytes limit.suffix := by
    rw [c.bytes_sql, hpieces, List.flatMap_append, Edit.bytes_of_piecesFrom hps, limit.bytes_tail]
  refine ⟨site.countEdit countAlias :: es, ⟨hordered, hinsertable, hsql, ?_, ?_, ?_, ?_⟩, ?_⟩
  · rw [hpieces, List.flatMap_append, Edit.keptBytes_of_piecesFrom hps, limit.keptBytes_tail,
      List.append_nil, List.drop_zero]
  · rw [hpieces, List.filterMap_append, Edit.added_of_piecesFrom hps, limit.added_tail]
  · exact ⟨site.projection, rfl, hposition⟩
  · rw [hposition, hsql]
    exact Edit.prefix_drop_weave hlength (site.bytes_countEdit countAlias)
  · intro hclause horder
    have hnone : site.predicateEdits clause (clause.render dialect (baseParams.length + 1)).sql ++
        site.orderEdits order = [] := by
      rw [Site.predicateEdits, hclause, if_pos rfl, Site.orderEdits, horder, if_pos rfl]
      rfl
    have hes : es = [] := (hnone ▸ Edit.perm_of_sort hsort : es.Perm []).eq_nil
    rw [hes]
    rfl

/-- A parenthesis too many, a quote that is not closed and a blank outside ASCII. -/
theorem compose_splices_unclosed :
    ∃ c edits, compose .postgres "total" "SELECT ALL é FROM t) WHERE \u00a0x = 'a" []
        ⟨.and, [[⟨"t.a", .equal, .null, false⟩]]⟩ ⟨[]⟩ (.bounded 5 0) = .ok c ∧
      c.sql = "SELECT ALL count(*) OVER() AS total, é FROM t) WHERE \u00a0(x = 'a) " ++
        "AND (t.a = $1) LIMIT 5 OFFSET 0" ∧
      c.Splices "SELECT ALL é FROM t) WHERE \u00a0x = 'a" "total" (.bounded 5 0) edits := by
  have h : compose .postgres "total" "SELECT ALL é FROM t) WHERE \u00a0x = 'a" []
      ⟨.and, [[⟨"t.a", .equal, .null, false⟩]]⟩ ⟨[]⟩ (.bounded 5 0) =
        .ok ⟨[.kept "SELECT ALL", .added " count(*) OVER() AS total,",
          .kept " é FROM t) WHERE \u00a0", .added "(", .kept "x = 'a", .added ") AND (t.a = $1)",
          .kept "", .added " LIMIT 5 OFFSET 0"], [.null], "total", 11⟩ := by
    cbv
  obtain ⟨-, -, hsplices⟩ := compose_splices .postgres "total"
    "SELECT ALL é FROM t) WHERE \u00a0x = 'a" [] ⟨.and, [[⟨"t.a", .equal, .null, false⟩]]⟩ ⟨[]⟩
    (.bounded 5 0)
  obtain ⟨edits, hedits, -⟩ := hsplices _ h
  exact ⟨_, edits, h, by decide +kernel, hedits⟩

end Listing
