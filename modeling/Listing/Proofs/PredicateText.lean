import Listing.Proofs.ClauseEnds
import Listing.Proofs.Formulas

/-!
# The predicate of a statement

The predicate that a statement has at its top level is what stands behind its WHERE, the first one
behind FROM, up to the next clause. `predicateText?` reads it from the words of the statement, by
names of its own for the clauses that may follow; it ends where a lookup of these keywords does
(`predicateStop_behind`). A base statement has it where its site says (`predicateText?_of_locate`);
in any other statement it is found by the texts of the words in front of it
(`predicateText?_of_words`).

A database takes some characters for white space that a scanner does not. Where a statement has none
of these in its code, what a site passes in front of a predicate is blanks (`blank_of_blankRun`) and
no token of it (`codeTokens_blanks`). The tokens of a text that opens and closes its parentheses do
so as well (`nests_codeTokens`), so that they are one group between two more
(`splitGroup_of_nests`).
-/

namespace Listing

open Text

/-! ## Reading a predicate -/

/-- The first of some words that spells a name, and the words behind it. -/
def wordIn? (name : String) : List Word → Option (Word × List Word)
  | [] => none
  | w :: ws => if w.spells name then some (w, ws) else wordIn? name ws

/-- Whether words start with some names, one word for each. -/
def opensWith : List String → List Word → Bool
  | [], _ => true
  | _ :: _, [] => false
  | name :: names, w :: ws => w.spells name && opensWith names ws

/-- The clauses that may follow a predicate. -/
def predicateEnds : List (List String) :=
  [["group", "by"], ["having"], ["window"], ["order", "by"], ["limit"], ["offset"], ["fetch"]]

/-- Where a predicate ends that has some words behind its WHERE: with the last code in front of the
next clause, or with the code of the statement. -/
def predicateStop (codeEnd : Nat) : List Word → Nat
  | [] => codeEnd
  | w :: ws =>
    if predicateEnds.any (opensWith · (w :: ws)) then w.before else predicateStop codeEnd ws

/-- The predicate that a statement has at its top level. -/
def predicateText? (text : List UInt8) : Option (List UInt8) := do
  let (_, behindSelect) ← wordIn? "select" (Outline.of text).words
  let scope := ((wordIn? "from" behindSelect).map (·.2)).getD behindSelect
  let (present, rest) ← wordIn? "where" scope
  some ((text.take (predicateStop (Outline.of text).codeEnd rest)).drop present.stop)

/-- The tokens of the predicate of a statement, none if it has no predicate. -/
def predicateTokens (d : Dialect) (text : List UInt8) : List CodeToken :=
  ((predicateText? text).map (codeTokens d)).getD []

/-! ## Words and lookups -/

section

variable {a : String} {k : Keyword} {w : Word} {ws A B : List Word} {text : List UInt8}
  {position : Nat}

theorem wordIn?_append (h : ∀ v ∈ A, v.spells a = false) :
    wordIn? a (A ++ B) = wordIn? a B := by
  induction A with
  | nil => rfl
  | cons v A ih =>
    rw [List.cons_append, wordIn?, if_neg (Bool.eq_false_iff.1 (h v List.mem_cons_self)),
      ih fun u hu => h u (List.mem_cons_of_mem v hu)]

theorem wordIn?_of_spells (hA : ∀ v ∈ A, v.spells a = false) (hw : w.spells a = true) :
    wordIn? a (A ++ w :: B) = some (w, B) := by
  rw [wordIn?_append hA, wordIn?, if_pos hw]

theorem append_of_wordIn? (h : wordIn? a ws = some (w, B)) : ∃ A, ws = A ++ w :: B := by
  induction ws with
  | nil => cases h
  | cons v ws ih =>
    rw [wordIn?] at h
    split at h
    · cases h
      exact ⟨[], rfl⟩
    · obtain ⟨A, rfl⟩ := ih h
      exact ⟨v :: A, rfl⟩

/-- A lookup of one word finds the first one that spells it. -/
theorem head?_places_single_eq (hparts : k.parts = [a]) (h : ∀ v ∈ ws, position ≤ v.start) :
    (Outline.places [k] position ws).head? =
      (wordIn? a ws).map fun (v, _) => ⟨v.start, v.stop, v.before⟩ := by
  induction ws with
  | nil => rfl
  | cons v ws ih =>
    have hrest := ih fun u hu => h u (List.mem_cons_of_mem v hu)
    rw [Outline.places, if_pos (h v List.mem_cons_self), List.head?_append, List.head?_filterMap,
      List.findSome?_singleton, Outline.placeAt?_single hparts, wordIn?]
    by_cases hv : v.spells a = true
    · rw [if_pos hv, if_pos hv]
      rfl
    · rw [if_neg hv, if_neg hv, Option.none_or]
      exact hrest

theorem opensWith_parts (k : Keyword) (w : Word) (ws : List Word) :
    opensWith k.parts (w :: ws) = (Outline.placeAt? k (w :: ws)).isSome := by
  have hspells (u : Word) (a : String) : u.spells a = spelled u.text a := rfl
  rw [Outline.isSome_placeAt?]
  cases k <;> cases ws <;> simp [opensWith, startsWith, Keyword.parts, hspells]

theorem any_opensWith (w : Word) (ws : List Word) :
    predicateEnds.any (opensWith · (w :: ws)) =
      (Keyword.afterWhere.findSome? (Outline.placeAt? · (w :: ws))).isSome := by
  have hends : predicateEnds = Keyword.afterWhere.map Keyword.parts := rfl
  rw [hends, List.any_map, List.isSome_findSome?]
  exact congrArg _ (funext fun k => opensWith_parts k w ws)

/-- A predicate ends where a lookup of the keywords that end it says. -/
theorem predicateStop_eq (codeEnd : Nat) (h : ∀ v ∈ ws, position ≤ v.start) :
    predicateStop codeEnd ws =
      ((Outline.places Keyword.afterWhere position ws).head?.map (·.before)).getD codeEnd := by
  induction ws with
  | nil => rfl
  | cons v ws ih =>
    have hrest := ih fun u hu => h u (List.mem_cons_of_mem v hu)
    rw [predicateStop, any_opensWith, Outline.places, if_pos (h v List.mem_cons_self),
      List.head?_append, List.head?_filterMap]
    cases hfound : Keyword.afterWhere.findSome? (Outline.placeAt? · (v :: ws)) with
    | none => exact hrest
    | some p =>
      obtain ⟨k, -, hp⟩ := List.exists_of_findSome?_eq_some hfound
      exact (Outline.placeAt?_start hp).2.symm

variable (hws : (Outline.of text).words = A ++ w :: B)

include hws

theorem start_behind_word : ∀ v ∈ B, w.stop ≤ v.start := by
  intro v hv
  have hmem : v ∈ (Outline.of text).words := by simp [hws, hv]
  have hbounds := Outline.word_bounds hmem
  have hbefore := Outline.le_before_of_mem_back hws hv
  omega

theorem first?_behind_word (hparts : k.parts = [a]) :
    (Outline.of text).first? k w.stop =
      (wordIn? a B).map fun (v, _) => ⟨v.start, v.stop, v.before⟩ := by
  rw [Outline.first?, Outline.places_behind_word hws,
    head?_places_single_eq hparts (start_behind_word hws)]

theorem predicateStop_behind :
    predicateStop (Outline.of text).codeEnd B =
      Site.clauseEnd text Keyword.afterWhere w.stop := by
  rw [predicateStop_eq _ (start_behind_word hws), Site.clauseEnd, Outline.earliest?,
    Outline.places_behind_word hws]

/-- The predicate behind the first WHERE among the words behind a word. -/
theorem predicate_behind_word :
    ((wordIn? "where" B).bind fun (present, rest) =>
      some ((text.take (predicateStop (Outline.of text).codeEnd rest)).drop present.stop)) =
      ((Outline.of text).first? .where w.stop).map fun present =>
        (text.take (Site.clauseEnd text Keyword.afterWhere present.stop)).drop present.stop := by
  rw [first?_behind_word hws (k := .where) rfl]
  cases hpresent : wordIn? "where" B with
  | none => rfl
  | some found =>
    obtain ⟨present, rest⟩ := found
    obtain ⟨M, rfl⟩ := append_of_wordIn? hpresent
    have hsplit : (Outline.of text).words = (A ++ w :: M) ++ present :: rest := by simp [hws]
    simp only [Option.bind_some, Option.map_some, predicateStop_behind hsplit]

end

/-! ## Finding a predicate -/

namespace Site

open Outline

variable {countAlias : String} {text : List UInt8} {site : Site}

theorem predicateText?_of_locate (h : locate countAlias text = .ok site) :
    predicateText? text = (site.outline.first? .where site.scope).map fun present =>
      (text.take (clauseEnd text Keyword.afterWhere present.stop)).drop present.stop := by
  obtain ⟨select, hselect, -, houtline, hscope, -⟩ := locate_ok h
  rw [first?, head?_places_single_eq (a := "select") rfl fun _ _ => Nat.zero_le _] at hselect
  obtain ⟨⟨w, B⟩, hfound, rfl⟩ := Option.map_eq_some_iff.1 hselect
  obtain ⟨A, hwords⟩ := append_of_wordIn? hfound
  rw [houtline, hscope, predicateText?, hfound, first?_behind_word hwords (a := "from") rfl]
  simp only [Option.bind_eq_bind, Option.bind_some]
  cases htable : wordIn? "from" B with
  | none => exact predicate_behind_word hwords
  | some found =>
    obtain ⟨table, C⟩ := found
    obtain ⟨F, rfl⟩ := append_of_wordIn? htable
    have hsplit : (Outline.of text).words = (A ++ w :: F) ++ table :: C := by simp [hwords]
    exact predicate_behind_word hsplit

end Site

/-- What may stand between SELECT and a WHERE that is the one of the statement: a FROM with no WHERE
behind it, or no FROM and no WHERE, and no FROM behind WHERE either. -/
inductive LeadsToWhere (front back : List (List UInt8)) : Prop
  | behindFrom {former latter : List (List UInt8)} {table : List UInt8}
      (hfront : front = former ++ table :: latter)
      (hformer : ∀ t ∈ former, spelled t "from" = false) (htable : spelled table "from" = true)
      (hlatter : ∀ t ∈ latter, spelled t "where" = false)
  | withoutFrom (hfront : ∀ t ∈ front, spelled t "from" = false ∧ spelled t "where" = false)
      (hback : ∀ t ∈ back, spelled t "from" = false)

theorem LeadsToWhere.of_noWhere {front back : List (List UInt8)}
    (hwhere : ∀ t ∈ front, spelled t "where" = false)
    (hback : (∀ t ∈ front, spelled t "from" = false) → ∀ t ∈ back, spelled t "from" = false) :
    LeadsToWhere front back := by
  by_cases hfrom : ∀ t ∈ front, spelled t "from" = false
  · exact .withoutFrom (fun t ht => ⟨hfrom t ht, hwhere t ht⟩) (hback hfrom)
  · have hsplit := List.takeWhile_append_dropWhile (p := fun t => !spelled t "from") (l := front)
    have hformer : ∀ t ∈ front.takeWhile fun t => !spelled t "from", spelled t "from" = false := by
      intro t ht
      simpa using List.all_eq_true.1 List.all_takeWhile t ht
    cases hrest : front.dropWhile fun t => !spelled t "from" with
    | nil =>
      rw [hrest, List.append_nil] at hsplit
      rw [← hsplit] at hfrom
      exact absurd hformer hfrom
    | cons table latter =>
      have hnot := List.head?_dropWhile_not (fun t => !spelled t "from") front
      rw [hrest] at hnot hsplit
      refine .behindFrom hsplit.symm hformer (by simpa using hnot) fun t ht => hwhere t ?_
      rw [← hsplit]
      simp [ht]

/-- A text that may stand between WHERE and the next clause. -/
structure IsPredicate (u : List UInt8) : Prop extends Finished u where
  ne_nil : u ≠ []
  head : ∀ b ∈ u.head?, Lexeme.isWordByte b = false
  last : ∀ b ∈ u.getLast?, isSeparator b = true

namespace Outline

variable {text : List UInt8} {A M C : List Word} {select x : Word}

/-- The words of a statement up to a WHERE that is the one of the statement. -/
theorem predicateText?_of_words (hwords : (Outline.of text).words = A ++ select :: (M ++ x :: C))
    (hA : ∀ w ∈ A, w.spells "select" = false) (hselect : select.spells "select" = true)
    (hx : x.spells "where" = true) (h : LeadsToWhere (M.map (·.text)) (C.map (·.text))) :
    predicateText? text =
      some ((text.take (Site.clauseEnd text Keyword.afterWhere x.stop)).drop x.stop) := by
  have hstop : (Outline.of text).words = (A ++ select :: M) ++ x :: C := by simp [hwords]
  rw [predicateText?, ← predicateStop_behind hstop]
  simp only [hwords, wordIn?_of_spells hA hselect, Option.bind_eq_bind, Option.bind_some]
  cases h with
  | behindFrom hfront hformer htable hlatter =>
    obtain ⟨F, R, rfl, rfl, hR⟩ := List.map_eq_append_iff.1 hfront
    obtain ⟨table, L, rfl, rfl, rfl⟩ := List.map_eq_cons_iff.1 hR
    have hfrom : wordIn? "from" ((F ++ table :: L) ++ x :: C) = some (table, L ++ x :: C) := by
      rw [List.append_assoc, List.cons_append]
      exact wordIn?_of_spells (fun w hw => hformer w.text (List.mem_map_of_mem hw)) htable
    have hwhere : wordIn? "where" (L ++ x :: C) = some (x, C) :=
      wordIn?_of_spells (fun w hw => hlatter w.text (List.mem_map_of_mem hw)) hx
    simp only [hfrom, Option.map_some, Option.getD_some, hwhere, Option.bind_some]
  | withoutFrom hfront hback =>
    have hnone : ∀ w ∈ M ++ x :: C, w.spells "from" = false := by
      intro w hw
      rcases List.mem_append.1 hw with hw | hw
      · exact (hfront w.text (List.mem_map_of_mem hw)).1
      rcases List.mem_cons.1 hw with rfl | hw
      · exact Word.not_spells hx (by decide)
      · exact hback w.text (List.mem_map_of_mem hw)
    have hfrom : wordIn? "from" (M ++ x :: C) = none := by
      rw [← List.append_nil (M ++ x :: C), wordIn?_append hnone]
      rfl
    have hwhere : wordIn? "where" (M ++ x :: C) = some (x, C) :=
      wordIn?_of_spells (fun w hw => (hfront w.text (List.mem_map_of_mem hw)).2) hx
    simp only [hfrom, Option.map_none, Option.getD_none, hwhere, Option.bind_some]

/-- What stands between a front that ends with WHERE and a rest that opens with the next clause is
the predicate of the whole. -/
theorem predicateText?_of_texts {u p rest : List UInt8} (hu : Finished u)
    (hwords : (Outline.of u).words = A ++ select :: (M ++ [x]))
    (hA : ∀ w ∈ A, w.spells "select" = false) (hselect : select.spells "select" = true)
    (hx : x.spells "where" = true) (hstop : x.stop = u.length) (hp : IsPredicate p)
    (hmute : ∀ t ∈ topWords p, Mute t) (hrest : Site.clauseEnd rest Keyword.afterWhere 0 = 0)
    (h : LeadsToWhere (M.map (·.text)) (topWords p ++ topWords rest)) :
    predicateText? (u ++ (p ++ rest)) = some p := by
  have hxMem : x ∈ (Outline.of u).words := by simp [hwords]
  have hhead : ∀ b ∈ (p ++ rest).head?, Lexeme.isWordByte b = false := by
    rw [List.head?_append_of_ne_nil p hp.ne_nil]
    exact hp.head
  have hseam : Seam u (p ++ rest) := seam_of_word hxMem hstop hhead
  have htexts := texts_behind u.length (Outline.of u).codeEnd (Outline.of (p ++ rest)).words
  change _ = topWords _ at htexts
  rw [topWords_append hp.closed (.of_last hp.last)] at htexts
  have hwhole := words_append hu.closed hseam
  rw [hwords, List.append_assoc, List.cons_append, List.append_assoc, List.singleton_append]
    at hwhole
  have hend : Site.clauseEnd (u ++ (p ++ rest)) Keyword.afterWhere u.length =
      u.length + p.length := by
    rw [Site.clauseEnd_append hu hseam,
      Site.clauseEnd_append_mute hp.toFinished (.of_last hp.last) (by decide) hmute, hrest,
      Nat.add_zero]
  rw [predicateText?_of_words hwhole hA hselect hx (htexts ▸ h), hstop, hend,
    List.take_length_add_append, List.take_left, List.drop_left]

end Outline

/-! ## Blanks -/

/-- A text that has no other white space than blanks outside its quotes and comments. -/
def PlainBlanks (text : List UInt8) : Prop :=
  ∀ x ∈ lexemes text, x.kind ≠ .quoted → x.kind ≠ .comment →
    ∀ c ∈ blanks, String.utf8EncodeChar c <:+: x.text →
      ∀ b ∈ String.utf8EncodeChar c, Lexeme.isBlankByte b = true

theorem plainBlanks_iff (text : List UInt8) :
    ((lexemes text).all fun x => x.kind == .quoted || x.kind == .comment ||
        blanks.all fun c => (String.utf8EncodeChar c).all Lexeme.isBlankByte ||
          !decide (String.utf8EncodeChar c <:+: x.text)) = true ↔ PlainBlanks text := by
  simp only [PlainBlanks, List.all_eq_true, Bool.or_eq_true, beq_iff_eq, Bool.not_eq_true',
    decide_eq_false_iff_not]
  grind

instance (text : List UInt8) : Decidable (PlainBlanks text) :=
  decidable_of_iff _ (plainBlanks_iff text)

variable {u v : List UInt8} {b : UInt8} {d : Dialect}

theorem eq_of_isBlankByte (h : Lexeme.isBlankByte b = true) :
    b = Ascii.space ∨ b = Ascii.tab ∨ b = Ascii.newline ∨ b = Ascii.formFeed ∨
      b = Ascii.carriageReturn := by
  simpa [Lexeme.isBlankByte, or_assoc] using h

theorem lexemes_blank (h : Lexeme.isBlankByte b = true) (v : List UInt8) :
    lexemes (b :: v) = ⟨.blank, [b]⟩ :: lexemes v := by
  have hfirst : Lexeme.first b v = (⟨.blank, [b]⟩, v) := by
    rcases eq_of_isBlankByte h with rfl | rfl | rfl | rfl | rfl <;> rfl
  rw [lexemes_cons, hfirst]

theorem PlainBlanks.of_blanks (hu : ∀ b ∈ u, Lexeme.isBlankByte b = true)
    (h : PlainBlanks (u ++ v)) : PlainBlanks v := by
  induction u with
  | nil => exact h
  | cons b u ih =>
    refine ih (fun a ha => hu a (List.mem_cons_of_mem b ha)) fun x hx => h x ?_
    rw [List.cons_append, lexemes_blank (hu b List.mem_cons_self)]
    exact List.mem_cons_of_mem _ hx

/-- Blanks are no tokens. -/
theorem codeTokens_blanks (h : ∀ b ∈ u, Lexeme.isBlankByte b = true) (v : List UInt8) :
    codeTokens d (u ++ v) = codeTokens d v := by
  induction u with
  | nil => rfl
  | cons b u ih =>
    have hb := h b List.mem_cons_self
    have hmark : (⟨.blank, [b]⟩ : Lexeme).text ≠ bytes "?" := by
      rcases eq_of_isBlankByte hb with rfl | rfl | rfl | rfl | rfl <;> decide
    rw [List.cons_append, codeTokens, lexemes_blank hb, Dialect.codeAmong_cons hmark]
    exact ih fun a ha => h a (List.mem_cons_of_mem b ha)

theorem isPlain_blanks (h : ∀ b ∈ u, Lexeme.isBlankByte b = true) : IsPlain u := by
  intro b hb
  rcases eq_of_isBlankByte (h b hb) with rfl | rfl | rfl | rfl | rfl <;> rfl

/-- Nor are they words. -/
theorem topWords_blanks (h : ∀ b ∈ u, Lexeme.isBlankByte b = true) : topWords u = [] := by
  rw [topWords, List.map_eq_nil_iff]
  refine List.eq_nil_iff_forall_not_mem.2 fun w hw => ?_
  obtain ⟨htext, hword⟩ := Outline.word_text hw
  obtain ⟨b, r, hbr⟩ := List.exists_cons_of_ne_nil hword.ne_nil
  have hb : b ∈ w.text := hbr ▸ List.mem_cons_self
  have hisWord := hword.all b hb
  rw [← htext] at hb
  have hmem := List.mem_of_mem_take (List.mem_of_mem_drop hb)
  rcases eq_of_isBlankByte (h b hmem) with rfl | rfl | rfl | rfl | rfl <;>
    exact absurd hisWord (by decide)

/-- White space that starts a text is blank if there is no other in the text. -/
theorem PlainBlanks.blank_of_prefix {c : Char} (hc : c ∈ blanks)
    (h : PlainBlanks (String.utf8EncodeChar c ++ v)) :
    ∀ b ∈ String.utf8EncodeChar c, Lexeme.isBlankByte b = true := by
  -- white space is a blank, a vertical tab, or no ASCII and so part of a word
  have hkinds : (blanks.all fun c => (String.utf8EncodeChar c).all Lexeme.isBlankByte ||
      String.utf8EncodeChar c == [0x0b] || (String.utf8EncodeChar c).all Lexeme.isWordByte) =
        true := by
    decide +kernel
  have hkind := List.all_eq_true.1 hkinds c hc
  have hne : String.utf8EncodeChar c ≠ [] := by
    rw [ne_eq, ← List.length_eq_zero_iff, String.length_utf8EncodeChar]
    exact Nat.ne_of_gt c.utf8Size_pos
  obtain ⟨b, r, hbr⟩ := List.exists_cons_of_ne_nil hne
  have hhead := h (Lexeme.first b (r ++ v)).1
    (by rw [hbr, List.cons_append, lexemes_cons]; exact List.mem_cons_self)
  simp only [Bool.or_eq_true, beq_iff_eq] at hkind
  rcases hkind with (hblank | htab) | hword
  · exact List.all_eq_true.1 hblank
  · rw [htab] at hbr
    obtain ⟨rfl, rfl⟩ := List.cons.inj hbr
    exact hhead Lexeme.Kind.noConfusion Lexeme.Kind.noConfusion c hc (htab ▸ List.infix_rfl)
  · rw [hbr, List.all_cons, Bool.and_eq_true, List.all_eq_true] at hword
    obtain ⟨hb, hr⟩ := hword
    have hbegins := (Lexeme.Begins.word (r := r ++ v) hb).first_eq
    rw [hbegins] at hhead
    refine hhead Lexeme.Kind.noConfusion Lexeme.Kind.noConfusion c hc ?_
    rw [hbr, List.takeWhile_append_of_pos hr]
    exact ⟨[], v.takeWhile Lexeme.isWordByte, rfl⟩

/-- What is passed in front of a predicate is blanks if there is no other white space. -/
theorem blank_of_blankRun (h : PlainBlanks v) :
    ∀ b ∈ v.take (blankRun v), Lexeme.isBlankByte b = true := by
  fun_induction blankRun v with
  | case1 => simp
  | case2 => simp
  | case3 b r n hwidth ih =>
    rw [blankWidth] at hwidth
    cases hfound : blanks.find? fun c => (String.utf8EncodeChar c).isPrefixOf (b :: r) with
    | none =>
      rw [hfound] at hwidth
      cases hwidth
    | some c =>
      rw [hfound] at hwidth
      have hprefix : (String.utf8EncodeChar c).isPrefixOf (b :: r) = true := by
        have hsome := List.find?_some hfound
        exact hsome
      obtain ⟨t, ht⟩ := List.isPrefixOf_iff_prefix.1 hprefix
      have hlength : (String.utf8EncodeChar c).length = n + 1 := by
        rw [String.length_utf8EncodeChar]
        exact hwidth
      have hdrop : r.drop n = t := by
        have hdrop := congrArg (List.drop (n + 1)) ht
        rw [List.drop_left' hlength] at hdrop
        exact hdrop.symm
      rw [← ht] at h
      have hc := h.blank_of_prefix (List.mem_of_find?_eq_some hfound)
      rw [hdrop] at ih ⊢
      intro a ha
      rw [← ht, ← hlength, List.take_length_add_append] at ha
      rcases List.mem_append.1 ha with ha | ha
      · exact hc a ha
      · exact ih (.of_blanks hc h) a ha

/-- What stands behind a joint of a text has no other white space either. -/
theorem PlainBlanks.drop {position : Nat} (h : PlainBlanks v) (hj : Joint v position) :
    PlainBlanks (v.drop position) := by
  intro x hx
  refine h x ?_
  have hmode : (({} : Reader).after (v.take position)).mode = .code := by rw [hj.cut.reads]
  rw [← List.take_append_drop position v, lexemes_append hmode hj.seam.apart]
  exact List.mem_append_right _ hx

/-! ## Code -/

/-- Lexemes without a token are no code. -/
theorem Dialect.codeEnd_of_codeAmong {xs : List Lexeme} (h : d.codeAmong xs = []) (s : Scan) :
    (xs.foldl Scan.pass s).codeEnd = s.codeEnd := by
  have hpass {x : Lexeme} (hx : (d.codeToken? x).toList = []) (s : Scan) :
      (s.pass x).codeEnd = s.codeEnd := by
    have hcode : s.isCode x = false := by
      revert hx
      unfold codeToken? Scan.isCode
      cases x.kind <;> simp
    exact Scan.codeEnd_pass_of_not_isCode (by simp [hcode])
  fun_induction codeAmong d xs generalizing s with
  | case1 => rfl
  | case2 x => exact hpass h s
  | case3 x y xs n hpair ih => cases h
  | case4 x y xs hpair ih =>
    obtain ⟨hx, hrest⟩ := List.append_eq_nil_iff.1 h
    rw [List.foldl_cons, ih hrest, hpass hx]

/-- A stretch that ends with code has tokens. -/
theorem codeTokens_ne_nil {p q : Nat} (hp : Joint v p) (hlt : p < q) (hle : q ≤ v.length)
    (hq : Finished (v.take q)) : codeTokens d ((v.take q).drop p) ≠ [] := by
  intro hnil
  have hzero : (Outline.of ((v.take q).drop p)).codeEnd = 0 := Dialect.codeEnd_of_codeAmong hnil {}
  have hfront := Outline.codeEnd_le (v.take p)
  have hcodeEnd := hq.codeEnd
  have hwhole := Outline.of_append hp.cut.reads (hp.seam_between (b := q))
  rw [← Cut.take_eq (Nat.le_of_lt hlt)] at hwhole
  rw [hwhole] at hcodeEnd
  dsimp only at hcodeEnd
  rw [hzero, codeBehind, if_pos rfl, List.length_take] at hcodeEnd
  rw [List.length_take] at hfront
  omega

/-! ## Groups -/

/-- Lexemes that close the parentheses that they open, and as many more. -/
def Lexeme.Nests : Nat → List Lexeme → Prop
  | n, [] => n = 0
  | n, x :: xs => (x.kind = .closing → 0 < n) ∧ Nests (x.depthBehind n) xs

/-- Tokens that do so. -/
def CodeToken.Nests : Nat → List CodeToken → Prop
  | n, [] => n = 0
  | n, .opening :: ts => Nests (n + 1) ts
  | n, .closing :: ts => 0 < n ∧ Nests (n - 1) ts
  | n, _ :: ts => Nests n ts

/-- Tokens that close their parentheses are what stands up to the next closing one. -/
theorem splitGroup_of_nests {n : Nat} {ts : List CodeToken} (h : CodeToken.Nests n ts)
    (us : List CodeToken) : splitGroup n (ts ++ .closing :: us) = some (ts, us) := by
  induction ts generalizing n with
  | nil =>
    obtain rfl : n = 0 := h
    rfl
  | cons t ts ih =>
    rw [List.cons_append]
    cases t with
    | opening =>
      have hrest : CodeToken.Nests (n + 1) ts := h
      rw [splitGroup, ih hrest]
      rfl
    | closing =>
      obtain ⟨hpos, hrest⟩ := h
      cases n with
      | zero => cases hpos
      | succ n =>
        have hrest' : CodeToken.Nests n ts := hrest
        rw [splitGroup, ih hrest']
        rfl
    | word text =>
      have hrest : CodeToken.Nests n ts := h
      rw [splitGroup, ih hrest]
      all_goals simp
    | placeholder m =>
      have hrest : CodeToken.Nests n ts := h
      rw [splitGroup, ih hrest]
      all_goals simp
    | quoted text =>
      have hrest : CodeToken.Nests n ts := h
      rw [splitGroup, ih hrest]
      all_goals simp
    | sign text =>
      have hrest : CodeToken.Nests n ts := h
      rw [splitGroup, ih hrest]
      all_goals simp
    | semicolon =>
      have hrest : CodeToken.Nests n ts := h
      rw [splitGroup, ih hrest]
      all_goals simp

/-- The tokens of a lexeme open and close the parentheses that it does. -/
theorem Dialect.nests_codeToken? {n : Nat} {x : Lexeme} {ts : List CodeToken}
    (hx : x.kind = .closing → 0 < n) (h : CodeToken.Nests (x.depthBehind n) ts) :
    CodeToken.Nests n ((d.codeToken? x).toList ++ ts) := by
  unfold Lexeme.depthBehind at h
  unfold Dialect.codeToken?
  cases hkind : x.kind with
  | word =>
    simp only [hkind] at h ⊢
    cases d.wordNumber? x.text <;> exact h
  | closing =>
    simp only [hkind] at h ⊢
    exact ⟨hx hkind, h⟩
  | _ =>
    simp only [hkind] at h ⊢
    exact h

theorem Dialect.nests_codeAmong {n : Nat} {xs : List Lexeme} (h : Lexeme.Nests n xs) :
    CodeToken.Nests n (d.codeAmong xs) := by
  fun_induction codeAmong d xs generalizing n with
  | case1 => exact h
  | case2 x =>
    have hend : CodeToken.Nests (x.depthBehind n) [] := h.2
    have hx := nests_codeToken? (d := d) h.1 hend
    rwa [List.append_nil] at hx
  | case3 x y xs m hpair ih =>
    -- neither the sign nor the word of a placeholder is a parenthesis
    obtain ⟨-, -, hrest⟩ := h
    cases d with
    | postgres => cases hpair
    | sqlite =>
      unfold pairNumber? at hpair
      split at hpair
      · cases hpair
      · rename_i hkinds
        split at hpair
        · rename_i hkinds
          rw [Lexeme.depthBehind, Lexeme.depthBehind, hkinds.1, hkinds.2.2] at hrest
          exact ih hrest
        · cases hpair
  | case4 x y xs hpair ih => exact nests_codeToken? h.1 (ih h.2)

theorem Lexeme.Begins.eq_closeParen {r rest : List UInt8} {x : Lexeme}
    (h : Lexeme.Begins b r x rest) (hkind : x.kind = .closing) : b = Ascii.closeParen := by
  cases h with
  | single =>
    simp only [singleKind] at hkind
    grind
  | _ => cases hkind

/-- The reader is in a quoted run only behind its quote. -/
theorem Reader.isQuote_of_quoted {r : Reader} {u : List UInt8} {q : UInt8}
    (hr : ∀ q, r.mode = .quoted q → Lexeme.isQuote q = true) (h : (r.after u).mode = .quoted q) :
    Lexeme.isQuote q = true := by
  induction u generalizing r with
  | nil => exact hr q h
  | cons b u ih =>
    refine ih (fun q' hq' => ?_) h
    unfold step at hq'
    cases hmode : r.mode with
    | quoted quote => grind
    | _ => grind

/-- Nor does it pass a closing parenthesis to code from anything else than code. -/
theorem Reader.mode_of_closeParen {u : List UInt8}
    (h : ((({} : Reader).after u).step Ascii.closeParen none).mode = .code) :
    (({} : Reader).after u).mode = .code := by
  cases hmode : (({} : Reader).after u).mode with
  | code => rfl
  | quoted q =>
    have hq : Ascii.closeParen ≠ q := by
      rintro rfl
      have hquote := isQuote_of_quoted (fun q hq => by cases hq) hmode
      cases hquote
    simp [step, hmode, hq] at h
  | line =>
    have hne : Ascii.closeParen ≠ Ascii.newline := by decide
    simp [step, hmode, hne] at h
  | opening => simp [step, hmode] at h
  | block star =>
    have hne : Ascii.closeParen ≠ Ascii.slash := by decide
    simp [step, hmode, hne] at h

/-- A text that opens and closes its parentheses does so by its lexemes. -/
theorem Lexeme.nests_of_neutral (h : Reader.Neutral u) : Lexeme.Nests 0 (lexemes u) := by
  have hstep {passed rest : List UInt8} {s : Scan} (hreaches : Scan.Reaches passed rest s)
      (htext : passed ++ rest = u) : Lexeme.Nests s.depth (lexemes rest) := by
    fun_induction lexemes rest generalizing passed s with
    | case1 =>
      rw [List.append_nil] at htext
      subst htext
      have hdepth := hreaches.depth_eq
      rw [h.closed] at hdepth
      exact hdepth.symm
    | case2 b r ih =>
      have hx := Lexeme.begins_first b r
      refine ⟨fun hkind => ?_, ih (hreaches.pass hx) ?_⟩
      · obtain rfl : b = Ascii.closeParen := hx.eq_closeParen hkind
        have hsplits : Reader.Splits passed [Ascii.closeParen] := Reader.splits_of_head (by decide)
        have hreads := hreaches.agrees [Ascii.closeParen] ⟨r, rfl⟩ (List.cons_ne_nil _ _)
        have hmode : ((({} : Reader).after passed).step Ascii.closeParen none).mode = .code := by
          rw [Reader.after_append hsplits] at hreads
          exact congrArg Reader.mode hreads
        have hnested := h.nested
        rw [← htext, ← List.singleton_append, ← List.append_assoc] at hnested
        have hpos := ((Reader.nested_append hsplits).1 (Reader.nested_of_append hnested)).2.1
          (Reader.mode_of_closeParen hmode) rfl
        rwa [hreaches.depth_eq] at hpos
      · rw [hx.append_append, htext]
  exact hstep .start rfl

theorem nests_codeTokens (h : Reader.Neutral u) : CodeToken.Nests 0 (codeTokens d u) :=
  Dialect.nests_codeAmong (Lexeme.nests_of_neutral h)

end Listing
