import Listing.Proofs.Gaps
import Listing.Proofs.Relocation

/-!
# What stands behind a statement

Blanks, semicolons and comments behind a statement are no code, so its outline is that of the
statement without them (`Outline.of_append_trailer`). Nor do they take part in the decision whether
there is a predicate behind WHERE. `compose_append_trailer`: a listing is composed as if they were
not there.
-/

namespace Listing

open Text

/-- What may stand behind a statement. A line comment at the end needs no line break. -/
inductive Trailer : List UInt8 → Prop
  | nil : Trailer []
  | blank {b : UInt8} {t : List UInt8} (hb : Lexeme.isBlankByte b = true) (h : Trailer t) :
      Trailer (b :: t)
  | semicolon {t : List UInt8} (h : Trailer t) : Trailer (Ascii.semicolon :: t)
  | comment {c t : List UInt8} (hc : IsComment c) (h : Trailer t) : Trailer (c ++ t)
  | unended {u : List UInt8} (hu : Ascii.newline ∉ u) : Trailer (Ascii.hyphen :: Ascii.hyphen :: u)

/-- A byte that keeps what follows apart from the code in front of it. -/
def startsTrailer (b : UInt8) : Bool := Lexeme.isBlankByte b || b == Ascii.semicolon

namespace Trailer

variable {u t : List UInt8}

theorem lexemes_semicolon (v : List UInt8) :
    lexemes (Ascii.semicolon :: v) = ⟨.semicolon, [Ascii.semicolon]⟩ :: lexemes v := by
  rw [lexemes_cons]
  rfl

/-- Its lexemes end a statement or are passed between its tokens. -/
theorem kinds (h : Trailer t) : ∀ x ∈ lexemes t, x.isToken = false ∨ x.kind = .semicolon := by
  induction h with
  | nil =>
    intro x hx
    rw [lexemes_nil] at hx
    cases hx
  | blank hb h ih =>
    intro x hx
    rw [lexemes_blank hb] at hx
    rcases List.mem_cons.1 hx with rfl | hx
    · exact .inl rfl
    · exact ih x hx
  | semicolon h ih =>
    intro x hx
    rw [lexemes_semicolon] at hx
    rcases List.mem_cons.1 hx with rfl | hx
    · exact .inr rfl
    · exact ih x hx
  | comment hc h ih =>
    intro x hx
    rw [hc.gap.append] at hx
    rcases List.mem_append.1 hx with hx | hx
    · exact .inl (hc.gap.noToken x hx)
    · exact ih x hx
  | @unended u hu =>
    intro x hx
    have hline := lexemes_line (v := []) hu (by simp)
    rw [List.append_nil, lexemes_nil] at hline
    rw [hline, List.mem_singleton] at hx
    rw [hx]
    exact .inl rfl

/-- At the top level it has no words and no code. -/
theorem outline_eq (h : Trailer t) : Outline.of t = ⟨[], 0⟩ := by
  obtain ⟨hwords, hend, -⟩ := Scan.foldl_mute {} fun x hx =>
    (h.kinds x hx).imp_right fun hkind => ⟨hkind, rfl⟩
  rw [Outline.of, hwords, hend]

end Trailer

variable {u t : List UInt8}

theorem Seam.of_startsTrailer (h : ∀ b ∈ t.head?, startsTrailer b = true) : Seam u t := by
  have hbyte : ∀ b ∈ t.head?, Lexeme.isWordByte b = false ∧ Lexeme.isQuote b = false ∧
      b ≠ Ascii.hyphen ∧ b ≠ Ascii.asterisk := by
    intro b hb
    have hstarts := h b hb
    simp only [startsTrailer, Bool.or_eq_true, beq_iff_eq] at hstarts
    rcases hstarts with hblank | rfl
    · rcases eq_of_isBlankByte hblank with rfl | rfl | rfl | rfl | rfl <;> decide
    · decide
  refine ⟨fun a ha b hb => ?_, fun a _ _ b hb => (hbyte b hb).1⟩
  obtain ⟨hword, hquote, hhyphen, hasterisk⟩ := hbyte b hb
  refine ⟨by simp [hword], ?_, by simp [Reader.opensLine, hhyphen],
    by simp [Reader.opensBlock, hasterisk]⟩
  rintro ⟨hquote', rfl⟩
  rw [hquote] at hquote'
  cases hquote'

/-- What stands behind a statement is no part of its outline. -/
theorem Outline.of_append_trailer (hu : ({} : Reader).after u = {}) (ht : Trailer t)
    (hhead : ∀ b ∈ t.head?, startsTrailer b = true) : Outline.of (u ++ t) = Outline.of u := by
  rw [Outline.of_append hu (.of_startsTrailer hhead), ht.outline_eq]
  simp [codeBehind]

theorem isBeyond_of_startsTrailer {b : UInt8} (h : startsTrailer b = true) :
    Ascii.isBeyond b = false := by
  simp only [startsTrailer, Bool.or_eq_true, beq_iff_eq] at h
  rcases h with hblank | rfl
  · rcases eq_of_isBlankByte hblank with rfl | rfl | rfl | rfl | rfl <;> decide
  · decide

/-- What stands behind a statement makes no predicate of the blanks behind its WHERE. -/
theorem Site.predicateEdits_append_trailer {countAlias : String} {site : Site}
    (h : locate countAlias u = .ok site) (hhead : ∀ b ∈ t.head?, startsTrailer b = true)
    (clause : WhereClause) (predicate : String) :
    (site.move id (u ++ t)).predicateEdits clause predicate =
      site.predicateEdits clause predicate := by
  rw [predicateEdits_move strictMono_id, Edit.map_move_id]
  intro present hpresent
  obtain ⟨-, w, hw, rfl, -, -⟩ := where_words h hpresent
  have hbounds := Outline.word_bounds hw
  have hend := Outline.codeEnd_le u
  have hclause := clauseEnd_le_codeEnd u Keyword.afterWhere w.stop
  have hrun := blankRun_le (u.drop w.stop)
  have hdrop : (u ++ t).drop w.stop = u.drop w.stop ++ t :=
    List.drop_append_of_le_length (by omega)
  simp only [id_eq, text_eq h, predicateEnd_eq h hw, hdrop,
    blankRun_append (u.drop w.stop) fun b hb => isBeyond_of_startsTrailer (hhead b hb)]
  rw [List.length_drop] at hrun ⊢
  split <;> omega

/-- **What stands behind a statement is dropped without a trace**: blanks, semicolons and comments,
whatever the comments hold. Any listing is composed as without them, or refused as without them. -/
theorem compose_append_trailer (dialect : Dialect) (countAlias base t : String)
    (baseParams : List Value) (clause : WhereClause) (order : OrderBy) (limit : Limit)
    (hbase : ({} : Reader).after (bytes base) = {}) (ht : Trailer (bytes t))
    (hhead : ∀ b ∈ (bytes t).head?, startsTrailer b = true) :
    compose dialect countAlias (base ++ t) baseParams clause order limit =
      compose dialect countAlias base baseParams clause order limit := by
  have houtline := Outline.of_append_trailer hbase ht hhead
  have hlocate := Site.locate_move strictMono_id countAlias rfl
    (houtline.trans (Outline.move_id _).symm)
  unfold compose
  rw [bytes_append, hlocate]
  cases hsite : Site.locate countAlias (bytes base) with
  | error e => rfl
  | ok site =>
    have hpaging : (site.move id (bytes base ++ bytes t)).paging?.isSome =
        site.paging?.isSome := by
      rw [Site.paging?_move strictMono_id, Option.isSome_map]
    have htext : (site.move id (bytes base ++ bytes t)).text.take
        (site.move id (bytes base ++ bytes t)).outline.codeEnd =
          site.text.take site.outline.codeEnd := by
      have hle := Outline.codeEnd_le (bytes base)
      simp only [Site.move, Outline.move_id, Site.text_eq hsite, Site.outline_eq hsite]
      rw [List.take_append_of_le_length hle]
    have horder : (site.move id (bytes base ++ bytes t)).orderEdits order =
        site.orderEdits order := by
      rw [Site.orderEdits_move strictMono_id, Edit.map_move_id]
    simp only [Except.map, bind, Except.bind, hpaging, htext, horder,
      Site.predicateEdits_append_trailer hsite hhead]
    rfl

/-- A semicolon, a line comment with a limit in it and a block that mentions the count column and
opens a quote: none of them is taken for a predicate or for a limit of the statement. -/
theorem compose_append_trailer_commented :
    ({} : Reader).after (bytes "SELECT a FROM t WHERE") = {} ∧
      compose .postgres "total"
        ("SELECT a FROM t WHERE" ++ " ; -- LIMIT 1\n/* total ' */;--x") []
        ⟨.and, [[⟨"t.a", .equal, .null, false⟩]]⟩ ⟨[]⟩ (.bounded 5 0) =
      compose .postgres "total" "SELECT a FROM t WHERE" []
        ⟨.and, [[⟨"t.a", .equal, .null, false⟩]]⟩ ⟨[]⟩ (.bounded 5 0) := by
  have hbase : ({} : Reader).after (bytes "SELECT a FROM t WHERE") = {} := by decide +kernel
  have hparts : bytes " ; -- LIMIT 1\n/* total ' */;--x" =
      Ascii.space :: Ascii.semicolon :: Ascii.space ::
        (Ascii.hyphen :: Ascii.hyphen :: (bytes " LIMIT 1" ++ [Ascii.newline]) ++
          (Ascii.slash :: Ascii.asterisk :: (bytes " total ' " ++ [Ascii.asterisk, Ascii.slash]) ++
            Ascii.semicolon :: Ascii.hyphen :: Ascii.hyphen :: bytes "x")) := by
    decide +kernel
  have ht : Trailer (bytes " ; -- LIMIT 1\n/* total ' */;--x") := by
    rw [hparts]
    exact .blank rfl (.semicolon (.blank rfl (.comment (.line (by decide +kernel))
      (.comment (.block (by decide +kernel)) (.semicolon (.unended (by decide +kernel)))))))
  exact ⟨hbase, compose_append_trailer _ _ _ _ _ _ _ _ hbase ht (by decide +kernel)⟩

end Listing
