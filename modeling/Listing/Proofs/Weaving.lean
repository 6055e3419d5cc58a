import Listing.Proofs.Comments
import Listing.Proofs.Composition

/-!
# Edits around a gap

What edits make of a text with a gap in it, such as a comment. The edits in front of the gap stay,
those behind it move on by its length (`Edit.weave_gap`), and what comes of them has the same tokens
as without the gap if the edits in front of it leave a blank in code there
(`Edit.tokenLexemes_weave_gap`). A parenthesis may also go to the one side of the gap or the other
(`Edit.tokenLexemes_weave_openParen`).
-/

namespace Listing

open Text

/-! ## Edits of a text with a gap in it -/

namespace Edit

variable {front gap back : List UInt8} {es es' : List Edit}

/-- Up to a position in front of all edits nothing is added. -/
theorem weave_from {text : List UInt8} {cursor a : Nat} (hle : cursor ≤ a)
    (hes : ∀ e ∈ es, a ≤ e.position) :
    weave text cursor es = (text.take a).drop cursor ++ weave text a es := by
  have hsplit : weave (text.take (max a text.length)) cursor es =
      (text.take a).drop cursor ++ weave (text.take (max a text.length)) a es :=
    weave_split hle (Nat.le_max_left a text.length) hes
  rwa [List.take_of_length_le (Nat.le_max_right a text.length)] at hsplit

/-- Edits up to the end of the first of two texts and from there on. -/
theorem weave_parts (hes : ∀ e ∈ es, e.position ≤ front.length)
    (hes' : ∀ e ∈ es', front.length ≤ e.position) :
    weave (front ++ back) 0 (es ++ es') =
      weave front 0 es ++ weave (front ++ back) front.length es' := by
  have hsplit : weave ((front ++ back).take (front ++ back).length) 0 (es ++ es') =
      weave ((front ++ back).take front.length) 0 es ++
        weave ((front ++ back).take (front ++ back).length) front.length es' :=
    weave_append (Nat.zero_le _) (by simp) hes hes'
  rwa [List.take_length, List.take_left] at hsplit

/-- Behind the gap, all edits are made as without it. -/
theorem weave_slide {m : Nat} (hm : front.length ≤ m)
    (hes : ∀ e ∈ es, front.length ≤ e.position) :
    weave (front ++ (gap ++ back)) (m + gap.length)
        (es.map (Edit.move (slide front.length gap.length))) =
      weave (front ++ back) m es := by
  have hdrop {m p : Nat} (hm : front.length ≤ m) (hp : front.length ≤ p) :
      ((front ++ (gap ++ back)).take (p + gap.length)).drop (m + gap.length) =
        ((front ++ back).take p).drop m := by
    obtain ⟨i, rfl⟩ := Nat.exists_eq_add_of_le hm
    obtain ⟨j, rfl⟩ := Nat.exists_eq_add_of_le hp
    have hcomm (i : Nat) : front.length + i + gap.length = front.length + (gap.length + i) := by
      omega
    rw [hcomm, hcomm, List.take_length_add_append, List.take_length_add_append,
      List.take_length_add_append, List.drop_length_add_append, List.drop_length_add_append,
      List.drop_length_add_append]
  induction es generalizing m with
  | nil =>
    have hend := hdrop (p := (front ++ back).length) hm (by simp)
    rw [List.take_length, List.take_of_length_le (by simp; omega)] at hend
    exact hend
  | cons e es ih =>
    have he := hes e List.mem_cons_self
    rw [List.map_cons, weave, weave, Edit.move, slide_of_le he]
    dsimp only
    rw [hdrop hm he, ih he fun a ha => hes a (List.mem_cons_of_mem e ha)]

/-- All edits behind the gap stay behind it. -/
theorem le_of_mem_slide {n k : Nat} (hes : ∀ e ∈ es, n ≤ e.position) :
    ∀ e ∈ es.map (Edit.move (slide n k)), n + k ≤ e.position := by
  intro e he
  obtain ⟨a, ha, rfl⟩ := List.mem_map.1 he
  have hle := hes a ha
  rw [Edit.move, slide_of_le hle]
  exact Nat.add_le_add_right hle k

/-- The gap stands in front of all edits behind it. -/
theorem weave_gap (hes : ∀ e ∈ es, front.length ≤ e.position) :
    weave (front ++ (gap ++ back)) front.length
        (es.map (Edit.move (slide front.length gap.length))) =
      gap ++ weave (front ++ back) front.length es := by
  rw [weave_from (Nat.le_add_right _ gap.length) (le_of_mem_slide hes),
    weave_slide (Nat.le_refl _) hes, List.take_length_add_append, List.take_left, List.drop_left]

/-- In front of the gap nothing moves. -/
theorem map_slide_of_lt {n k : Nat} (hes : ∀ e ∈ es, e.position < n) :
    es.map (Edit.move (slide n k)) = es := by
  conv => rhs; rw [← List.map_id es]
  refine List.map_congr_left fun e he => ?_
  rw [Edit.move, slide_of_lt (hes e he), id_eq]

theorem pairwise_sort (es : List Edit) :
    (Edit.sort es).Pairwise fun a b => a.position ≤ b.position :=
  (List.pairwise_mergeSort position_le_trans position_le_total es).imp
    fun h => of_decide_eq_true h

/-- Edits in order fall apart at every position. -/
theorem exists_split (hordered : es.Pairwise fun a b => a.position ≤ b.position) (n : Nat) :
    ∃ A B, es = A ++ B ∧ (∀ e ∈ A, e.position < n) ∧ ∀ e ∈ B, n ≤ e.position := by
  induction es with
  | nil => exact ⟨[], [], rfl, by simp, by simp⟩
  | cons e es ih =>
    obtain ⟨hfirst, hrest⟩ := List.pairwise_cons.1 hordered
    by_cases hlt : e.position < n
    · obtain ⟨A, B, rfl, hA, hB⟩ := ih hrest
      exact ⟨e :: A, B, rfl, List.forall_mem_cons.2 ⟨hlt, hA⟩, hB⟩
    · refine ⟨[], e :: es, rfl, by simp, List.forall_mem_cons.2 ⟨by omega, fun a ha => ?_⟩⟩
      have hle := hfirst a ha
      omega

end Edit

theorem Limit.edits_move (f : Nat → Nat) (limit : Limit) (position : Nat) :
    limit.edits (f position) = (limit.edits position).map (Edit.move f) := by
  cases limit <;> rfl

theorem Limit.position_of_mem_edits {limit : Limit} {position : Nat} {e : Edit}
    (he : e ∈ limit.edits position) : e.position = position := by
  cases limit with
  | unbounded => cases he
  | bounded => rw [List.mem_singleton.1 he]

/-! ## Tokens -/

/-- A text with a blank in code at its end. -/
structure EndsBlank (u : List UInt8) : Prop where
  code : EndsInCode u
  blank : ∃ w ∈ u.getLast?, Lexeme.isBlankByte w = true

/-- The tokens of two texts with a blank in code between them. -/
theorem EndsBlank.tokenLexemes_append {u : List UInt8} (hu : EndsBlank u) (v : List UInt8) :
    tokenLexemes (u ++ v) = tokenLexemes u ++ tokenLexemes v := by
  obtain ⟨w, hw, hblank⟩ := hu.blank
  obtain ⟨t, rfl⟩ := List.getLast?_eq_some_iff.1 hw
  rw [tokenLexemes, lexemes_append hu.code (Seam.of_blank hblank t v).apart, List.filter_append]
  rfl

theorem tokenLexemes_openParen (v : List UInt8) :
    tokenLexemes (bytes "(" ++ v) = ⟨.opening, bytes "("⟩ :: tokenLexemes v := by
  have hbytes : bytes "(" ++ v = Ascii.openParen :: v := rfl
  rw [hbytes, tokenLexemes, lexemes_cons]
  rfl

namespace Edit

variable {front gap back : List UInt8} {A B : List Edit}

/-- Edits in front of a gap and behind it make the same tokens as without the gap. -/
theorem tokenLexemes_weave_gap (hgap : Gap gap) (hfront : EndsBlank (weave front 0 A))
    (hA : ∀ e ∈ A, e.position ≤ front.length) (hB : ∀ e ∈ B, front.length ≤ e.position) :
    tokenLexemes (weave (front ++ (gap ++ back)) 0
        (A ++ B.map (Edit.move (slide front.length gap.length)))) =
      tokenLexemes (weave (front ++ back) 0 (A ++ B)) := by
  have hmoved : ∀ e ∈ B.map (Edit.move (slide front.length gap.length)),
      front.length ≤ e.position :=
    fun e he => Nat.le_of_add_right_le (le_of_mem_slide hB e he)
  rw [weave_parts hA hmoved, weave_parts hA hB, weave_gap hB, hfront.tokenLexemes_append,
    hfront.tokenLexemes_append, hgap.tokenLexemes_append]

/-- So does a parenthesis in front of the gap instead of one behind it and some blanks. -/
theorem tokenLexemes_weave_openParen {start : Nat} (hgap : Gap gap)
    (hfront : EndsBlank (weave front 0 A)) (hA : ∀ e ∈ A, e.position ≤ front.length)
    (hstart : front.length ≤ start) (hB : ∀ e ∈ B, start ≤ e.position)
    (hblanks : Gap (((front ++ back).take start).drop front.length)) :
    tokenLexemes (weave (front ++ (gap ++ back)) 0
        (A ++ ⟨front.length, "("⟩ :: B.map (Edit.move (slide front.length gap.length)))) =
      tokenLexemes (weave (front ++ back) 0 (A ++ ⟨start, "("⟩ :: B)) := by
  have hB' : ∀ e ∈ B, front.length ≤ e.position := fun e he => hstart.trans (hB e he)
  have hmoved : ∀ e ∈ (⟨front.length, "("⟩ : Edit) ::
      B.map (Edit.move (slide front.length gap.length)), front.length ≤ e.position :=
    List.forall_mem_cons.2 ⟨Nat.le_refl _,
      fun e he => Nat.le_of_add_right_le (le_of_mem_slide hB' e he)⟩
  have hplain : ∀ e ∈ (⟨start, "("⟩ : Edit) :: B, front.length ≤ e.position :=
    List.forall_mem_cons.2 ⟨hstart, hB'⟩
  have hsplit : weave (front ++ back) front.length B =
      ((front ++ back).take start).drop front.length ++ weave (front ++ back) start B :=
    weave_from hstart hB
  rw [weave_parts hA hmoved, weave_parts hA hplain, hfront.tokenLexemes_append,
    hfront.tokenLexemes_append, weave, weave, weave_gap hB', hsplit, List.take_left,
    List.drop_length, List.nil_append, tokenLexemes_openParen, hgap.tokenLexemes_append,
    hblanks.tokenLexemes_append, hblanks.tokenLexemes_append, tokenLexemes_openParen]

end Edit

end Listing
